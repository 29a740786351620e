import ClassCatalog.Text.Escape
import ClassCatalog.NameTable
import ClassCatalog.AccessFlags
import ClassCatalog.Ty.Equality
import ClassCatalog.Ty.Path
import ClassCatalog.Ty.Display
import ClassCatalog.Decimal.Style
import ClassCatalog.Interned
import ClassCatalog.ClassFile.ConstantPool
import ClassCatalog.ClassFile.Signature
import ClassCatalog.ClassFile.Decode
import ClassCatalog.Index.Builder
import ClassCatalog.Archive.Read
import ClassCatalog.Archive.Write
import ClassCatalog.Listing
import ClassCatalog.Files.Path
import ClassCatalog.Files.Tree
import ClassCatalog.Files.Search
import ClassCatalog.Files.Disk
import ClassCatalog.Command.Program
import ClassCatalog.Main
import ClassCatalog.Proofs.Archive.Decoded
import ClassCatalog.Proofs.Independence
import ClassCatalog.Proofs.Archive.Canonical
import ClassCatalog.Proofs.Archive.Delimited
import ClassCatalog.Proofs.ClassFile.Delimited
import ClassCatalog.Proofs.ClassFile.Targets
import ClassCatalog.Proofs.Archive.Accounting
import ClassCatalog.Proofs.Archive.Built
import ClassCatalog.Proofs.Archive.Resources
import ClassCatalog.Proofs.Archive.Layout
import ClassCatalog.Proofs.Archive.Skipping
import ClassCatalog.Proofs.ClassFile.OwnTypes
import ClassCatalog.Proofs.Names
import ClassCatalog.Proofs.NameRuns
import ClassCatalog.Proofs.ClassFile.Container
import ClassCatalog.Proofs.ClassFile.PoolNumbers
import ClassCatalog.Proofs.ClassFile.Visibility
import ClassCatalog.Proofs.ClassFile.Recovery
import ClassCatalog.Proofs.Index.Scans
import ClassCatalog.Index.Handles
import ClassCatalog.Proofs.Index.Handles
import ClassCatalog.Index.Indexer
import ClassCatalog.Proofs.Index.Batch
import ClassCatalog.Proofs.Index.Indexer
import ClassCatalog.Proofs.Index.Answers
import ClassCatalog.Proofs.ClassFile.DescriptorGrammar
import ClassCatalog.Proofs.ClassFile.SignatureRoundTrip
import ClassCatalog.Proofs.ClassFile.DescriptorSignatures
import ClassCatalog.Proofs.Ty.Navigation
import ClassCatalog.Proofs.Ty.Positions
import ClassCatalog.Proofs.Index.Reach
import ClassCatalog.Proofs.Index.Hierarchy
import ClassCatalog.Proofs.Index.AllOrNone
import ClassCatalog.Proofs.ClassFile.ElementForms
import ClassCatalog.Proofs.ClassFile.ElementValues
import ClassCatalog.Proofs.ClassFile.TypeEntries
import ClassCatalog.Proofs.ClassFile.TextLengths
import ClassCatalog.Proofs.ClassFile.ParameterTables
import ClassCatalog.Proofs.ClassFile.ParameterPositions
import ClassCatalog.Proofs.Listing.Lines
import ClassCatalog.Proofs.ClassFile.SignatureLevels
import ClassCatalog.Proofs.ClassFile.SourceForms
import ClassCatalog.Proofs.ClassFile.ModifiedUtf8
import ClassCatalog.Proofs.ClassFile.Division
import ClassCatalog.Proofs.ClassFile.Nesting
import ClassCatalog.Proofs.Command.Arguments
import ClassCatalog.Proofs.ClassFile.TableEdits
import ClassCatalog.Proofs.ClassFile.OpenTables
import ClassCatalog.Proofs.Archive.Words
import ClassCatalog.Proofs.Archive.OnePass
import ClassCatalog.Proofs.Archive.TableRuns
import ClassCatalog.Proofs.ClassFile.PoolSlots
import ClassCatalog.Proofs.ClassFile.Boundaries
