import ScimQuery.Filter.Postfix
import ScimQuery.Main
import ScimQuery.Proofs.Grammar
import ScimQuery.Proofs.Numerals
import ScimQuery.Proofs.Nearest
import ScimQuery.Proofs.Typing
import ScimQuery.Proofs.Parsing
import ScimQuery.Proofs.Reading.Reactions
import ScimQuery.Proofs.Reading.ErrorPlaces
import ScimQuery.Proofs.Lexing.Scanning
import ScimQuery.Proofs.Lexing.Spacing
import ScimQuery.Proofs.Lexing.Padding
import ScimQuery.Proofs.Canonical
import ScimQuery.Proofs.Lexing.Extraction
import ScimQuery.Proofs.Lexing.Places
import ScimQuery.Proofs.Lexing.Unclosed
import ScimQuery.Proofs.Lexing.Respacing
import ScimQuery.Proofs.Meaning
import ScimQuery.Proofs.Documents
import ScimQuery.Proofs.Patterns
import ScimQuery.Proofs.NormalForm
import ScimQuery.Proofs.Nesting
import ScimQuery.Proofs.RoundTrip
import ScimQuery.Proofs.Reading.Limits
import ScimQuery.Proofs.Reading.Resumption
import ScimQuery.Proofs.Writable
import ScimQuery.Proofs.Literals
import ScimQuery.Proofs.Confinement
import ScimQuery.Proofs.Chains
import ScimQuery.Proofs.Compilation
import ScimQuery.Proofs.Matching
import ScimQuery.Proofs.UniqueReading
import ScimQuery.Proofs.Origins
import ScimQuery.Proofs.Rounds
import ScimQuery.Proofs.Folding
import ScimQuery.Proofs.Equality
