import BoundSql.Proofs.Sql.Pieces

/-!
# Statements cut into lexemes

A scanner reads a text unit by unit and forgets the tokens it was written from.
Parentheses and commas are lexemes of their own, quoted strings and placeholders
are taken whole, other units in runs of one class; blanks and comments are left
out. A text is cut where its tokens meet, since one of any two is a break.
-/
namespace BoundSql.Sql

/-- Where a scanner is: between lexemes, in a run of one class, in a string or a comment. -/
inductive Mode where
  | idle
  | word
  | mark
  | sign
  | string
  | comment
  deriving DecidableEq

/-- The mode and the lexeme read so far; of a comment only its last unit. -/
structure Scanner where
  mode : Mode
  run : Text
  deriving DecidableEq

def isBlank (c : UInt16) : Bool := (Text.ofString " \t\n\r").contains c

/-- Units that are lexemes by themselves. -/
def isSingle (c : UInt16) : Bool := (Text.ofString "(),").contains c

/-- The units that placeholders start with. -/
def isMark (c : UInt16) : Bool := (Text.ofString "$?").contains c

/-- The units of operators: all that are nothing else. -/
def isSign (c : UInt16) : Bool :=
  !isBlank c && !isSingle c && !isMark c && !Identifier.isPart c && c ≠ quote

/-- Does a unit belong to the run that is being read? -/
def Mode.goesOn : Mode → UInt16 → Bool
  | .word, c => Identifier.isPart c
  | .mark, c => Identifier.isPart c || (Text.ofString ".+-").contains c
  | .sign, c => isSign c
  | _, _ => false

namespace Scanner

def idle : Scanner := ⟨.idle, []⟩

/-- The lexeme that ends where the text ends; open strings and comments have none. -/
def flush (s : Scanner) : List Text :=
  match s.mode with
  | .word | .mark | .sign => if s.run.isEmpty then [] else [s.run]
  | _ => []

/-- Is the scanner in neither a string nor a comment? -/
def isOutside (s : Scanner) : Bool := s.mode ≠ .string && s.mode ≠ .comment

/-- The scanner after the first unit of something new, and the lexeme if that is all. -/
def enter (c : UInt16) : Scanner × List Text :=
  if isBlank c then (idle, [])
  else if isSingle c then (idle, [[c]])
  else if c = quote then (⟨.string, [c]⟩, [])
  else if Identifier.isPart c then (⟨.word, [c]⟩, [])
  else if isMark c then (⟨.mark, [c]⟩, [])
  else (⟨.sign, [c]⟩, [])

/-- One more unit, and the lexemes that are complete with it. -/
def step (s : Scanner) (c : UInt16) : Scanner × List Text :=
  match s.mode with
  | .string =>
    if c = quote then (idle, [s.run ++ [c]]) else (⟨.string, s.run ++ [c]⟩, [])
  | .comment =>
    if c = slash && s.run = [Text.unit '*'] then (idle, []) else (⟨.comment, [c]⟩, [])
  | m =>
    if m = .sign && c = Text.unit '*' && s.run.getLast? = some slash then
      (⟨.comment, []⟩, flush ⟨.sign, s.run.dropLast⟩)
    else if m.goesOn c then (⟨m, s.run ++ [c]⟩, [])
    else ((Scanner.enter c).1, s.flush ++ (Scanner.enter c).2)

/-- A whole text, unit by unit. -/
def scan (s : Scanner) : Text → Scanner × List Text
  | [] => (s, [])
  | c :: rest => ((scan (s.step c).1 rest).1, (s.step c).2 ++ (scan (s.step c).1 rest).2)

end Scanner

open Scanner

/-- The lexemes of a text. -/
def lex (t : Text) : List Text := (scan idle t).2 ++ (scan idle t).1.flush

namespace Scanner

@[simp] theorem scan_nil (s : Scanner) : scan s [] = (s, []) := rfl

theorem scan_cons (s : Scanner) (c : UInt16) (rest : Text) :
    scan s (c :: rest) =
      ((scan (s.step c).1 rest).1, (s.step c).2 ++ (scan (s.step c).1 rest).2) := rfl

theorem scan_append (s : Scanner) (t u : Text) :
    scan s (t ++ u) = ((scan (scan s t).1 u).1, (scan s t).2 ++ (scan (scan s t).1 u).2) := by
  induction t generalizing s with
  | nil => simp
  | cons c t ih => simp [scan_cons, ih]

/-- A run goes on over units of its class. -/
lemma scan_run {m : Mode} (hm : m = .word ∨ m = .mark) {t : Text}
    (h : ∀ c ∈ t, m.goesOn c = true) (run : Text) : scan ⟨m, run⟩ t = (⟨m, run ++ t⟩, []) := by
  induction t generalizing run with
  | nil => simp
  | cons c t ih =>
    have hstep : step ⟨m, run⟩ c = (⟨m, run ++ [c]⟩, []) := by
      have hc := h c (by simp)
      rcases hm with rfl | rfl <;> simp [step, hc]
    rw [scan_cons, hstep, ih fun a ha => h a (List.mem_cons_of_mem c ha)]
    simp

/-- A comment goes on until a slash. -/
lemma scan_comment {t : Text} (h : slash ∉ t) (run : Text) :
    ∃ run', scan ⟨.comment, run⟩ t = (⟨.comment, run'⟩, []) := by
  induction t generalizing run with
  | nil => exact ⟨run, rfl⟩
  | cons c t ih =>
    rw [List.mem_cons, not_or] at h
    have hc : c ≠ slash := fun hc => h.1 hc.symm
    have hstep : step ⟨.comment, run⟩ c = (⟨.comment, [c]⟩, []) := by simp [step, hc]
    obtain ⟨run', hrun⟩ := ih h.2 [c]
    exact ⟨run', by rw [scan_cons, hstep, hrun]; rfl⟩

end Scanner

namespace Token

/-- The lexemes of a token by itself. -/
def lexemes (t : Token) : List Text := lex t.text

/-- A text of the units of names is one lexeme. -/
lemma scan_word {t : Text} (ht : t ≠ []) (h : ∀ c ∈ t, Identifier.isPart c = true) :
    scan idle t = (⟨.word, t⟩, []) := by
  cases t with
  | nil => exact absurd rfl ht
  | cons c t =>
    have hc := h c (by simp)
    have hother := of_isPart (p := fun a => !isBlank a && !isSingle a && decide (a ≠ quote))
      (by decide) hc
    simp only [Bool.and_eq_true, Bool.not_eq_true', decide_eq_true_eq] at hother
    have hstep : step idle c = (⟨.word, [c]⟩, []) := by
      simp [step, idle, Mode.goesOn, Scanner.enter, flush, hother, hc]
    rw [scan_cons, hstep, scan_run (.inl rfl) fun a ha => h a (List.mem_cons_of_mem c ha)]
    simp

lemma scan_placeholder (d : Dialect) (index : Double) :
    scan idle (placeholderText d index) = (⟨.mark, placeholderText d index⟩, []) := by
  have hnumber : ∀ c ∈ index.toText, Mode.mark.goesOn c = true := by
    intro c hc
    rcases Double.mem_toText hc with h | rfl | rfl | rfl
    · simp [Mode.goesOn, h]
    · decide
    · decide
    · decide
  have hmark : ∀ c, (c = Text.unit '$' ∨ c = Text.unit '?') →
      scan idle (c :: index.toText) = (⟨.mark, c :: index.toText⟩, []) := by
    intro c hc
    have hstep : step idle c = (⟨.mark, [c]⟩, []) := by
      rcases hc with rfl | rfl <;> decide
    rw [scan_cons, hstep, scan_run (.inr rfl) hnumber]
    simp
  cases d with
  | postgres => exact hmark _ (.inl rfl)
  | sqlite => exact hmark _ (.inr rfl)

/-- Of a bad range the false comparison is read and the comment is not. -/
lemma scan_noRange (n : ℕ) : scan idle (Token.noRange n).text =
    (idle, [Text.ofString "1", Text.ofString "=", Text.ofString "0"]) := by
  have hfront : scan idle (Text.ofString "1=0 /* BETWEEN requires 2 values, got ") =
      (⟨.comment, [Text.unit ' ']⟩,
        [Text.ofString "1", Text.ofString "=", Text.ofString "0"]) := by decide
  have hdigits : slash ∉ Text.ofNat n := fun h => (isSafe_plain (isSafe_of_mem_ofNat h)).2.2 rfl
  obtain ⟨run, hrun⟩ := scan_comment hdigits [Text.unit ' ']
  have hback : scan ⟨.comment, run⟩ (Text.ofString " */") = (idle, []) := by
    have hblank : step ⟨.comment, run⟩ (Text.unit ' ') = (⟨.comment, [Text.unit ' ']⟩, []) := by
      have hslash : Text.unit ' ' ≠ slash := by decide
      simp [step, hslash]
    have hrest : scan ⟨.comment, [Text.unit ' ']⟩ [Text.unit '*', slash] = (idle, []) := by
      decide
    change scan _ (Text.unit ' ' :: [Text.unit '*', slash]) = _
    rw [scan_cons, hblank, hrest]
    rfl
  rw [text, scan_append, scan_append, hfront, hrun, hback]
  rfl

/-- The scanner is outside again after the token, and between lexemes after a break. -/
def Closed (t : Token) : Prop :=
  (scan idle t.text).1.isOutside = true ∧ (t.isBreak = true → (scan idle t.text).1 = idle)

instance (t : Token) : Decidable t.Closed := inferInstanceAs (Decidable (_ ∧ _))

/-- The unit of a break belongs to no run and starts none. -/
lemma enter_of_break {c : UInt16} (hc : c ∈ breaks.flatten) :
    (∀ m : Mode, m.goesOn c = false) ∧ c ≠ Text.unit '*' ∧ (Scanner.enter c).1 = idle := by
  have hall : breaks.flatten.all (fun c => !Mode.word.goesOn c && !Mode.mark.goesOn c &&
      !Mode.sign.goesOn c && decide (c ≠ Text.unit '*') &&
      decide ((Scanner.enter c).1 = idle)) = true := by decide
  have h := List.all_eq_true.mp hall c hc
  simp only [Bool.and_eq_true, Bool.not_eq_true', decide_eq_true_eq] at h
  obtain ⟨⟨⟨⟨hword, hmark⟩, hsign⟩, hstar⟩, henter⟩ := h
  refine ⟨fun m => ?_, hstar, henter⟩
  cases m with
  | word => exact hword
  | mark => exact hmark
  | sign => exact hsign
  | _ => rfl

/-- A break ends whatever is being read. -/
lemma scan_break {t : Token} (ht : t.isBreak = true) {s : Scanner} (hs : s.isOutside = true) :
    scan s t.text = (idle, s.flush ++ t.lexemes) := by
  obtain ⟨m, run⟩ := s
  have hone : ∀ c ∈ breaks.flatten, t.text = [c] →
      scan ⟨m, run⟩ t.text = (idle, flush ⟨m, run⟩ ++ t.lexemes) := by
    intro c hc htext
    obtain ⟨hgoes, hstar, henter⟩ := enter_of_break hc
    have hidle : step idle c = Scanner.enter c := by simp [step, idle, hgoes, flush]
    have hstep : step ⟨m, run⟩ c = (idle, flush ⟨m, run⟩ ++ (Scanner.enter c).2) := by
      cases m with
      | string => simp [isOutside] at hs
      | comment => simp [isOutside] at hs
      | _ => simp [step, hgoes, hstar, henter]
    rw [lexemes, lex, htext, scan_cons, scan_cons, hstep, hidle, henter]
    simp [idle, flush]
  unfold isBreak at ht
  split at ht
  · exact hone (Text.unit ' ') (by decide) rfl
  · exact hone (Text.unit ',') (by decide) rfl
  · exact hone (Text.unit '(') (by decide) rfl
  · exact hone (Text.unit ')') (by decide) rfl
  · exact absurd ht Bool.false_ne_true

/-- Vetted tokens are closed, as long as no expression is among them. -/
theorem closed_of_vetted {d : Dialect} {I : Double → Prop} {t : Token} (h : t.Vetted d [] I) :
    t.Closed := by
  cases t with
  | word w => cases w <;> decide
  | symbol s => cases s <;> decide
  | name n =>
    have hscan := scan_word (Identifier.ne_nil h) fun c hc => Identifier.isPart_of_mem h hc
    exact ⟨by rw [text, hscan]; rfl, fun hb => absurd hb Bool.false_ne_true⟩
  | placeholder e index =>
    exact ⟨by rw [text, scan_placeholder]; rfl, fun hb => absurd hb Bool.false_ne_true⟩
  | rows n =>
    have hscan := scan_word (Text.ofNat_ne_nil n.toNat) fun c hc =>
      Double.isPart_of_isDigit (Text.isDigit_of_mem_ofNat hc)
    exact ⟨by rw [text, hscan]; rfl, fun hb => absurd hb Bool.false_ne_true⟩
  | wildcard => decide
  | noRange n => exact ⟨by rw [scan_noRange]; rfl, fun _ => by rw [scan_noRange]⟩
  | expression e => exact absurd h.1 List.not_mem_nil

theorem lexemes_name {n : Text} (h : Identifier.isValid n = true) : (name n).lexemes = [n] := by
  have hscan := scan_word (Identifier.ne_nil h) fun c hc => Identifier.isPart_of_mem h hc
  simp [lexemes, lex, text, hscan, flush, Identifier.ne_nil h]

theorem lexemes_placeholder (d : Dialect) (index : Double) :
    (placeholder d index).lexemes = [placeholderText d index] := by
  have hne : placeholderText d index ≠ [] := by cases d <;> simp [placeholderText]
  simp [lexemes, lex, text, scan_placeholder, flush, hne]

theorem lexemes_rows (n : UInt32) : (rows n).lexemes = [Text.ofNat n.toNat] := by
  have hne := Text.ofNat_ne_nil n.toNat
  have hscan := scan_word hne fun c hc => Double.isPart_of_isDigit (Text.isDigit_of_mem_ofNat hc)
  simp [lexemes, lex, text, hscan, flush, hne]

theorem lexemes_noRange (n : ℕ) : (noRange n).lexemes =
    [Text.ofString "1", Text.ofString "=", Text.ofString "0"] := by
  rw [lexemes, lex, scan_noRange]
  rfl

end Token

lemma scan_render {ts : List Token} (hspaced : Spaced ts) (hclosed : ∀ t ∈ ts, t.Closed)
    {s : Scanner} (hs : s.isOutside = true) (hled : s = idle ∨ Led ts) :
    (scan s (render ts)).2 ++ (scan s (render ts)).1.flush =
      s.flush ++ ts.flatMap Token.lexemes := by
  induction ts generalizing s with
  | nil => simp
  | cons t ts ih =>
    obtain ⟨hnext, htail⟩ := hspaced.of_cons
    have hrest : ∀ u ∈ ts, u.Closed := fun u hu => hclosed u (List.mem_cons_of_mem t hu)
    obtain ⟨houtside, hbreak⟩ := hclosed t (by simp)
    rw [render_cons, scan_append]
    rcases hled with rfl | hled
    · have hs' := ih htail hrest houtside (hnext.imp_left hbreak)
      simp only [List.append_assoc, hs']
      simp [Token.lexemes, lex, idle, flush]
    · rw [Token.scan_break ((led_cons t ts).mp hled) hs]
      have hs' := ih htail hrest (s := idle) rfl (.inl rfl)
      simp only [List.append_assoc, hs']
      simp [idle, flush]

/-- The lexemes of a text are those of its tokens. -/
theorem lex_render {ts : List Token} (hspaced : Spaced ts) (hclosed : ∀ t ∈ ts, t.Closed) :
    lex (render ts) = ts.flatMap Token.lexemes := by
  have h := scan_render hspaced hclosed (s := idle) rfl (.inl rfl)
  simpa [lex, idle, flush] using h

end BoundSql.Sql
