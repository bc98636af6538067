import TreeQuery.Main
import TreeQuery.PathCache
import TreeQuery.Proofs.Reading
import TreeQuery.Proofs.Token
import TreeQuery.Proofs.Shift
import TreeQuery.Proofs.Literal.Shift
import TreeQuery.Proofs.Address
import TreeQuery.Proofs.Value.Matching
import TreeQuery.Proofs.Value.Merging
import TreeQuery.Proofs.Value.Growth
import TreeQuery.Proofs.Value.Alike
import TreeQuery.Proofs.Value.Order
import TreeQuery.Proofs.Value.Without
import TreeQuery.Proofs.Json.Conversion
import TreeQuery.Proofs.Number.Nearest
import TreeQuery.Proofs.Number.Shortest
import TreeQuery.Proofs.Number.Overflow
import TreeQuery.Proofs.Number.Numeral
import TreeQuery.Proofs.Number.Layout
import TreeQuery.Proofs.Literal.Grammar
import TreeQuery.Proofs.Literal.Values
import TreeQuery.Proofs.Literal.Parsing
import TreeQuery.Proofs.Literal.Denotation
import TreeQuery.Proofs.Literal.Writing
import TreeQuery.Proofs.Literal.RoundTrip
import TreeQuery.Proofs.Path.Grammar
import TreeQuery.Proofs.Path.Parsing
import TreeQuery.Proofs.Path.Embedding
import TreeQuery.Proofs.Path.Joining
import TreeQuery.Proofs.Path.Patterns
import TreeQuery.Proofs.Path.Locate
import TreeQuery.Proofs.Path.Beginnings
import TreeQuery.Proofs.Completion
import TreeQuery.Proofs.Literal.Completion
import TreeQuery.Proofs.Path.Completion
import TreeQuery.Proofs.Finite
import TreeQuery.Proofs.Selector.Ensure
import TreeQuery.Proofs.Path.Ensure
import TreeQuery.Proofs.Path.Growth
import TreeQuery.Proofs.Selector.Write
import TreeQuery.Proofs.Path.Write
import TreeQuery.Proofs.Path.Rewrite
import TreeQuery.Proofs.Path.ReadBack
import TreeQuery.Proofs.Path.Erase
import TreeQuery.Proofs.Path.Insert
import TreeQuery.Proofs.Path.TakeBack
import TreeQuery.Proofs.Selector.Alike
import TreeQuery.Proofs.Path.Alike
import TreeQuery.Proofs.Cache.Calls
import TreeQuery.Proofs.Cache.Transparent
import TreeQuery.Proofs.Cache.Recency
import TreeQuery.Proofs.Path.Order
import TreeQuery.Proofs.Path.Erased
import TreeQuery.Proofs.Path.Overwrite
import TreeQuery.Proofs.Path.Keys
import TreeQuery.Proofs.Selector.Dealing
import TreeQuery.Proofs.Path.Dealing
import TreeQuery.Proofs.Path.Spine
import TreeQuery.Proofs.Json.Null
import TreeQuery.Proofs.Cache.Statistics
import TreeQuery.Proofs.Faults
import TreeQuery.Proofs.Literal.Faults
import TreeQuery.Proofs.Path.Faults
import TreeQuery.Proofs.Literal.Limit
import TreeQuery.Proofs.Path.Limit
import TreeQuery.Proofs.Path.Failing
import TreeQuery.Proofs.Diagnostic.Underline
import TreeQuery.Proofs.Advance
import TreeQuery.Proofs.Literal.Count
import TreeQuery.Proofs.Literal.Advance
import TreeQuery.Proofs.Path.Advance
import TreeQuery.Proofs.Operation
import TreeQuery.Proofs.Selector.Contract
