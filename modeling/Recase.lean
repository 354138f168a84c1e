import Recase.Text.Basic
import Recase.Text.Blank
import Recase.Text.Fold
import Recase.Text.Uppercase
import Recase.Name
import Recase.Token
import Recase.Edit
import Recase.Block
import Recase.Line
import Recase.Renaming
import Recase.Recasing
import Recase.File.Fault
import Recase.File.Path
import Recase.File.Tree
import Recase.File.System
import Recase.SchemaFile
import Recase.Report
import Recase.Command
import Recase.Command.Arguments
import Recase.Main
import Recase.Proofs.Texts
import Recase.Proofs.Names
import Recase.Proofs.SnakeCase
import Recase.Proofs.Lexing
import Recase.Proofs.Literals
import Recase.Proofs.Grammar
import Recase.Proofs.Renaming
import Recase.Proofs.Positions
import Recase.Proofs.ColumnNames
import Recase.Proofs.Lines
import Recase.Proofs.LineGrammar
import Recase.Proofs.Steps
import Recase.Proofs.OpenBlocks
import Recase.Proofs.ChangeLog
import Recase.Proofs.TableNames
import Recase.Proofs.Parts
import Recase.Proofs.Idempotence
import Recase.Proofs.SecondLog
import Recase.Proofs.Places
import Recase.Proofs.Preservation
import Recase.Proofs.Fields
import Recase.Proofs.Collisions
import Recase.Proofs.LineEndings
import Recase.Proofs.References
import Recase.Proofs.StoredColumns
import Recase.Proofs.AddedColumns
import Recase.Proofs.Files
import Recase.Proofs.Updates
import Recase.Proofs.Runs
