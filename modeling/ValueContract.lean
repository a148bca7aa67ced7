import ValueContract.Text
import ValueContract.Name
import ValueContract.TypeExpr
import ValueContract.Entity.Error
import ValueContract.Entity.Basic
import ValueContract.Entity.Define
import ValueContract.Loop
import ValueContract.Catalog.Basic
import ValueContract.Catalog.Indexed
import ValueContract.Catalog.Closure
import ValueContract.Catalog.Cycle
import ValueContract.Catalog.Stacks
import ValueContract.Catalog.Resolve
import ValueContract.Settings
import ValueContract.Class.Refusal
import ValueContract.Class.Spelling
import ValueContract.Class.Member
import ValueContract.Class.Custom
import ValueContract.Class.Unit
import ValueContract.Class.Emit
import ValueContract.Event
import ValueContract.Class.Log
import ValueContract.Value.Binary
import ValueContract.Value.Basic
import ValueContract.Value.Coerce
import ValueContract.Value.Instance
import ValueContract.Value.Place
import ValueContract.Value.Copy
import ValueContract.Value.Zero
import ValueContract.Document.Scan
import ValueContract.Document.Item
import ValueContract.Document.Scalar
import ValueContract.Document.Table
import ValueContract.Document.Grammar
import ValueContract.SchemaFile
import ValueContract.Proofs.Reference
import ValueContract.Proofs.ClosureWalk
import ValueContract.Proofs.CycleSearch
import ValueContract.Proofs.CycleSurvey
import ValueContract.Proofs.Resolution
import ValueContract.Proofs.CycleWitness
import ValueContract.Proofs.NearestFault
import ValueContract.Proofs.Fallible
import ValueContract.Proofs.FirstFault
import ValueContract.Proofs.Emission
import ValueContract.Proofs.CustomFile
import ValueContract.Proofs.DefaultConstruction
import ValueContract.Proofs.ConstructionOrder
import ValueContract.Proofs.Locality
import ValueContract.Proofs.ValueTree
import ValueContract.Proofs.Copying
import ValueContract.Proofs.ValueEquality
import ValueContract.Proofs.Definition
import ValueContract.Proofs.FieldWrite
import ValueContract.Proofs.TypedStorage
import ValueContract.Proofs.DeclaredShape
import ValueContract.Proofs.StatementReading
import ValueContract.Proofs.ClassExecution
import ValueContract.Proofs.GeneratedClass
import ValueContract.Proofs.ObjectTree
import ValueContract.Proofs.ContractSemantics
import ValueContract.Proofs.EmittedNames
import ValueContract.Proofs.MarkerBlock
import ValueContract.Proofs.EmissionFaults
import ValueContract.Proofs.ClassScope
import ValueContract.Proofs.StubInsertion
import ValueContract.Proofs.NameCapture
import ValueContract.Proofs.LineSubject
import ValueContract.Proofs.Ownership
import ValueContract.Proofs.SignatureLines
import ValueContract.Proofs.DeclarationPieces
import ValueContract.Proofs.Batch
import ValueContract.Proofs.Loading
import ValueContract.Proofs.NameIndex
import ValueContract.Proofs.TypeText
import ValueContract.Proofs.ByteOrder
import ValueContract.Proofs.Requirements
import ValueContract.Proofs.DefinitionFaults
import ValueContract.Proofs.SinglePrecision
import ValueContract.Proofs.Coercion
import ValueContract.Proofs.PathWrite
import ValueContract.Proofs.TableReading
import ValueContract.Proofs.Layout
import ValueContract.Proofs.EventLog
import ValueContract.Proofs.Storability
