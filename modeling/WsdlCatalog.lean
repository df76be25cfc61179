import WsdlCatalog.Location
import WsdlCatalog.Text.CanonicalName
import WsdlCatalog.Xml.Document
import WsdlCatalog.Fault
import WsdlCatalog.Options
import WsdlCatalog.Schema.Assembly
import WsdlCatalog.Schema.Declarations
import WsdlCatalog.Catalog.Transport
import WsdlCatalog.Content.Outline
import WsdlCatalog.Content.Particle
import WsdlCatalog.Content.Range
import WsdlCatalog.Compile.Inventory
import WsdlCatalog.Compile.Extension
import WsdlCatalog.Compile.Builtin
import WsdlCatalog.Compile.Progress
import WsdlCatalog.Compile.Reference
import WsdlCatalog.Compile.ComplexType
import WsdlCatalog.Compile.Catalog
import WsdlCatalog.Service
import WsdlCatalog.Text.Codec
import WsdlCatalog.Proofs.Occurrence
import WsdlCatalog.Proofs.Integrity
import WsdlCatalog.Proofs.Order
import WsdlCatalog.Proofs.Lossless
import WsdlCatalog.Proofs.InnerTypes
import WsdlCatalog.Proofs.Maximum
import WsdlCatalog.Proofs.Entries
import WsdlCatalog.Proofs.LocalMembers
import WsdlCatalog.Proofs.Concatenation
import WsdlCatalog.Proofs.ChoicePolicies
import WsdlCatalog.Proofs.Assembly
import WsdlCatalog.Proofs.Undeclared
import WsdlCatalog.Proofs.Redeclaration
import WsdlCatalog.Proofs.Prefixes
import WsdlCatalog.Proofs.Cardinality
import WsdlCatalog.Proofs.ChoiceBranches
import WsdlCatalog.Proofs.ChoiceGroups
import WsdlCatalog.Proofs.Documented
import WsdlCatalog.Proofs.Enclosing
import WsdlCatalog.Proofs.Lookups
import WsdlCatalog.Proofs.PlainViews
import WsdlCatalog.Proofs.Circles
import WsdlCatalog.Proofs.Folding
import WsdlCatalog.Proofs.SimpleChains
import WsdlCatalog.Proofs.Chameleons
import WsdlCatalog.Proofs.TextSlot
import WsdlCatalog.Proofs.EmissionOrder
import WsdlCatalog.Proofs.OperationNames
import WsdlCatalog.Proofs.Scoping
import WsdlCatalog.Proofs.PolicyHints
import WsdlCatalog.Proofs.Unwrapping
import WsdlCatalog.Proofs.Rereading
import WsdlCatalog.Proofs.Transports
import WsdlCatalog.Proofs.Refusals
import WsdlCatalog.Proofs.PascalCase
import WsdlCatalog.Proofs.Owners
import WsdlCatalog.Proofs.Mirroring
