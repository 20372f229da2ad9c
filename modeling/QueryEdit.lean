import QueryEdit.Text.Cut
import QueryEdit.Text.Cut.Lemmas
import QueryEdit.Text.Strip
import QueryEdit.Text.Strip.Lemmas
import QueryEdit.Text.Blank
import QueryEdit.Text.Utf8
import QueryEdit.Text.Utf8.Lemmas
import QueryEdit.Text.Clean
import QueryEdit.Text.Decimal
import QueryEdit.Value.Basic
import QueryEdit.Value.Literal
import QueryEdit.Operator
import QueryEdit.Token.Basic
import QueryEdit.Token.Text
import QueryEdit.Form.Component
import QueryEdit.Form.Component.Lemmas
import QueryEdit.Pairs
import QueryEdit.Form.Pairs
import QueryEdit.Form.Pairs.Lemmas
import QueryEdit.Query.Basic
import QueryEdit.Query.Form
import QueryEdit.Query.Op
import QueryEdit.Query.Slots
import QueryEdit.Query.Valid
import QueryEdit.Url.Host
import QueryEdit.Url.Location
import QueryEdit.Url.Basic
import QueryEdit.Mutation
import QueryEdit.Event
import QueryEdit.Traced
import QueryEdit.Evaluation
import QueryEdit.Session
import QueryEdit.Proofs.Text.Clean
import QueryEdit.Proofs.Text.Decimal
import QueryEdit.Proofs.Text.Padding
import QueryEdit.Proofs.Text.Utf8
import QueryEdit.Proofs.Value.Literal
import QueryEdit.Proofs.Token.Grammar
import QueryEdit.Proofs.Token.RoundTrip
import QueryEdit.Proofs.Token.Mutation
import QueryEdit.Proofs.Form.Reading
import QueryEdit.Proofs.Form.Writing
import QueryEdit.Proofs.Query.Refinement
import QueryEdit.Proofs.Query.Edit
import QueryEdit.Proofs.Query.Guarded
import QueryEdit.Proofs.Url.Location
import QueryEdit.Proofs.Url.Text
import QueryEdit.Proofs.Url.Grammar
import QueryEdit.Proofs.Url.WellFormed
import QueryEdit.Proofs.Url.Reachable
import QueryEdit.Proofs.Url.RoundTrip
import QueryEdit.Proofs.Url.Query
import QueryEdit.Proofs.Url.Front
import QueryEdit.Proofs.Session
import QueryEdit.Proofs.Url.Equality
import QueryEdit.Proofs.Url.Keys
import QueryEdit.Proofs.Url.Counting
import QueryEdit.Proofs.Url.Setting
import QueryEdit.Proofs.Evaluation
import QueryEdit.Proofs.Event
