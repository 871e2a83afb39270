import DataLisp.Command.Directory
import DataLisp.Document.Items
import DataLisp.Document.Search
import DataLisp.Main
import DataLisp.Proofs.ArrayItems
import DataLisp.Proofs.Concatenation
import DataLisp.Proofs.Conditions
import DataLisp.Proofs.Conversion
import DataLisp.Proofs.Cursors
import DataLisp.Proofs.Emission
import DataLisp.Proofs.Export
import DataLisp.Proofs.FreeLayout
import DataLisp.Proofs.GroupShapes
import DataLisp.Proofs.IndexedGroups
import DataLisp.Proofs.Origins
import DataLisp.Proofs.Outlines
import DataLisp.Proofs.Overflow
import DataLisp.Proofs.Positions
import DataLisp.Proofs.Programs
import DataLisp.Proofs.Pruning
import DataLisp.Proofs.Recovery
import DataLisp.Proofs.Reimport
import DataLisp.Proofs.Reporting
import DataLisp.Proofs.Searching
import DataLisp.Proofs.Soundness
import DataLisp.Proofs.StringLiterals
import DataLisp.Proofs.Unions
import DataLisp.Proofs.NumberGrammar
import DataLisp.Proofs.NumberTokens
import DataLisp.Proofs.RepeatedMembers
import DataLisp.Proofs.FiniteDoubles
import DataLisp.Proofs.JsonNumbers
