import BoundSql.Kit
import BoundSql.Proofs.Cursor.Encoding
import BoundSql.Proofs.Cursor.Grammar
import BoundSql.Proofs.Cursor.Token
import BoundSql.Proofs.Expressions
import BoundSql.Proofs.Filter.Dialects
import BoundSql.Proofs.Filter.Merging
import BoundSql.Proofs.Filter.Nesting
import BoundSql.Proofs.Filter.Values
import BoundSql.Proofs.Kit.ClientFilters
import BoundSql.Proofs.Kit.PageRequests
import BoundSql.Proofs.PageLinks
import BoundSql.Proofs.SortLists
import BoundSql.Proofs.Statement.Failures
import BoundSql.Proofs.Statement.Numbering
import BoundSql.Proofs.Statement.Renumbering
import BoundSql.Proofs.Statement.RequestedCursors
import BoundSql.Proofs.Statement.Rows
import BoundSql.Proofs.Statement.Shapes
import BoundSql.Proofs.Statement.Trusted
import BoundSql.Proofs.Table.Back
import BoundSql.Proofs.Table.Opposites
import BoundSql.Proofs.Table.Ranges
