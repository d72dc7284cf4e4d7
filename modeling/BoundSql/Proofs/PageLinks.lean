import BoundSql.PageLinks
import Mathlib

/-!
# Flags and tokens of page information

Page information is made from the size of a page and changed by calls, each of
which sets a flag, a token or the total. Nothing lowers the flag of the next
page, so it is raised wherever there is a token for that page. The flag of the
page before can be set by itself, so a token for it can be left without its flag,
and there is exactly one way to that.
-/
namespace BoundSql.PageLinks

/-- A call that changes page information. -/
inductive Change where
  | hasPrev (raised : Bool)
  | next (token : Option Text)
  | prev (token : Option Text)
  | total (rows : Double)

def change (info : PageLinks) : Change → PageLinks
  | .hasPrev raised => info.setHasPrev raised
  | .next token => info.setNext token
  | .prev token => info.setPrev token
  | .total rows => info.setTotal rows

/-- Page information after some calls. -/
def changeAll (info : PageLinks) (cs : List Change) : PageLinks := cs.foldl change info

variable {info : PageLinks} {cs ds : List Change}

@[simp] theorem changeAll_nil (info : PageLinks) : info.changeAll [] = info := rfl

@[simp] theorem changeAll_cons (info : PageLinks) (c : Change) (cs : List Change) :
    info.changeAll (c :: cs) = (info.change c).changeAll cs := rfl

theorem changeAll_append (info : PageLinks) (cs ds : List Change) :
    info.changeAll (cs ++ ds) = (info.changeAll cs).changeAll ds := List.foldl_append

/-- A token for the next page comes with its flag. -/
def NextFlagged (info : PageLinks) : Prop := info.nextToken.isSome = true → info.hasNext = true

lemma NextFlagged.change (h : info.NextFlagged) (c : Change) : (info.change c).NextFlagged := by
  cases c with
  | hasPrev raised => exact h
  | next token =>
    intro (hsome : token.isSome = true)
    change (info.hasNext || token.isSome) = true
    rw [hsome, Bool.or_true]
  | prev token => exact h
  | total rows => exact h

theorem NextFlagged.changeAll (h : info.NextFlagged) (cs : List Change) :
    (info.changeAll cs).NextFlagged := by
  induction cs generalizing info with
  | nil => exact h
  | cons c cs ih => exact ih (h.change c)

/-- Only a call for it changes the token of the page before. -/
lemma prevToken_changeAll (h : ∀ token, .prev token ∉ cs) :
    (info.changeAll cs).prevToken = info.prevToken := by
  induction cs generalizing info with
  | nil => rfl
  | cons c cs ih =>
    rw [changeAll_cons, ih fun token hmem => h token (List.mem_cons_of_mem c hmem)]
    cases c with
    | prev token => exact absurd List.mem_cons_self (h token)
    | _ => rfl

/-- Only a call for it or for its token changes the flag of the page before. -/
lemma hasPrev_changeAll (h : ∀ token, .prev token ∉ cs) (h' : ∀ raised, .hasPrev raised ∉ cs) :
    (info.changeAll cs).hasPrev = info.hasPrev := by
  induction cs generalizing info with
  | nil => rfl
  | cons c cs ih =>
    rw [changeAll_cons, ih (fun token hmem => h token (List.mem_cons_of_mem c hmem))
      fun raised hmem => h' raised (List.mem_cons_of_mem c hmem)]
    cases c with
    | hasPrev raised => exact absurd List.mem_cons_self (h' raised)
    | prev token => exact absurd List.mem_cons_self (h token)
    | _ => rfl

/-- The token that is there was set by the last call for it. -/
lemma exists_prev {token : Text} (hnone : info.prevToken = none)
    (h : (info.changeAll cs).prevToken = some token) :
    ∃ before after, cs = before ++ .prev (some token) :: after ∧ ∀ other, .prev other ∉ after := by
  induction cs using List.reverseRecOn with
  | nil => simp [hnone] at h
  | append_singleton cs c ih =>
    rw [changeAll_append] at h
    by_cases hprev : ∃ last, c = .prev last
    · obtain ⟨last, rfl⟩ := hprev
      obtain rfl : last = some token := h
      exact ⟨cs, [], rfl, by simp⟩
    · have hother : ∀ other, Change.prev other ∉ [c] := fun other hmem =>
        hprev ⟨other, (List.mem_singleton.mp hmem).symm⟩
      rw [prevToken_changeAll hother] at h
      obtain ⟨before, after, rfl, hafter⟩ := ih h
      refine ⟨before, after ++ [c], by simp, fun other hmem => ?_⟩
      rcases List.mem_append.mp hmem with hmem | hmem
      · exact hafter other hmem
      · exact hother other hmem

/-- The last call for the token of the page before sets one, and the last call for the flag that
comes after it lowers the flag. -/
def LowersPrev (cs : List Change) : Prop :=
  ∃ before token between after,
    cs = before ++ .prev (some token) :: (between ++ .hasPrev false :: after) ∧
    (∀ other, .prev other ∉ between ++ after) ∧ ∀ raised, .hasPrev raised ∉ after

lemma LowersPrev.append (h : LowersPrev cs) (hprev : ∀ other, .prev other ∉ ds)
    (hflag : ∀ raised, .hasPrev raised ∉ ds) : LowersPrev (cs ++ ds) := by
  obtain ⟨before, token, between, after, rfl, hother, hraised⟩ := h
  refine ⟨before, token, between, after ++ ds, by simp, fun other hmem => ?_,
    fun raised hmem => ?_⟩
  · rw [← List.append_assoc] at hmem
    exact (List.mem_append.mp hmem).elim (hother other) (hprev other)
  · exact (List.mem_append.mp hmem).elim (hraised raised) (hflag raised)

theorem lowersPrev_of_unflagged (hnone : info.prevToken = none)
    (h : (info.changeAll cs).prevToken.isSome = true)
    (hflag : (info.changeAll cs).hasPrev = false) : LowersPrev cs := by
  induction cs using List.reverseRecOn with
  | nil => simp [hnone] at h
  | append_singleton cs c ih =>
    rw [changeAll_append] at h hflag
    cases c with
    | hasPrev raised =>
      obtain rfl : raised = false := hflag
      obtain ⟨token, htoken⟩ := Option.isSome_iff_exists.mp h
      obtain ⟨before, after, rfl, hafter⟩ := exists_prev hnone htoken
      exact ⟨before, token, after, [], by simp, by simpa using hafter, by simp⟩
    | prev token =>
      -- a token that is set raises the flag
      have hsome : token.isSome = true := h
      have hraised : ((info.changeAll cs).hasPrev || token.isSome) = false := hflag
      simp [hsome] at hraised
    | next token => exact (ih h hflag).append (by simp) (by simp)
    | total rows => exact (ih h hflag).append (by simp) (by simp)

theorem unflagged_of_lowersPrev (h : LowersPrev cs) :
    (info.changeAll cs).prevToken.isSome = true ∧ (info.changeAll cs).hasPrev = false := by
  obtain ⟨before, token, between, after, rfl, hother, hraised⟩ := h
  have hbetween : ∀ other, Change.prev other ∉ between := fun other hmem =>
    hother other (List.mem_append_left after hmem)
  have hafter : ∀ other, Change.prev other ∉ after := fun other hmem =>
    hother other (List.mem_append_right between hmem)
  rw [changeAll_append, changeAll_cons, changeAll_append, changeAll_cons,
    prevToken_changeAll hafter, hasPrev_changeAll hafter hraised]
  refine ⟨?_, rfl⟩
  rw [change, setHasPrev, prevToken_changeAll hbetween]
  rfl

/-- Whatever calls are made, a token for the next page comes with its flag. A token for the page
before comes with its flag unless the flag was lowered by itself after the token had been set, and
not raised again since. -/
theorem changeAll_flags (count limit : Double) (cs : List Change) :
    let info := (ofCount count limit).changeAll cs
    (info.nextToken.isSome = true → info.hasNext = true) ∧
    ((info.prevToken.isSome = true → info.hasPrev = true) ↔ ¬ LowersPrev cs) := by
  intro info
  have hstart : (ofCount count limit).NextFlagged := fun hsome => by simp [ofCount] at hsome
  refine ⟨hstart.changeAll cs, fun hflag hlowers => ?_, fun hlowers hsome => ?_⟩
  · obtain ⟨hsome, hlow⟩ : info.prevToken.isSome = true ∧ info.hasPrev = false :=
      unflagged_of_lowersPrev hlowers
    exact absurd (hflag hsome) (Bool.eq_false_iff.mp hlow)
  · by_contra hlow
    exact hlowers (lowersPrev_of_unflagged rfl hsome (Bool.eq_false_iff.mpr hlow))

/-- A token for the page before whose flag is lowered afterwards. -/
theorem changeAll_lowers_flag :
    let info := (ofCount 1 2).changeAll [.prev (some "t"), .hasPrev false]
    info.prevToken = some "t" ∧ info.hasPrev = false := ⟨rfl, rfl⟩

end BoundSql.PageLinks
