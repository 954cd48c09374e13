import Stackless.Calling.Convention
import Stackless.Calling.FrameStack
import Stackless.Compile.Declaration
import Stackless.Compile.Inheritance
import Stackless.Compile.Linkage
import Stackless.Compile.Recursion
import Stackless.Compile.Usage
import Stackless.Compile.Workspace
import Stackless.Dict
import Stackless.Digest
import Stackless.Fault
import Stackless.Id
import Stackless.Key
import Stackless.Machine.Code
import Stackless.Machine.Run
import Stackless.Machine.Slot
import Stackless.Machine.Value
import Stackless.Number.Basic
import Stackless.Number.Decimal
import Stackless.Options
import Stackless.Problem
import Stackless.Program
import Stackless.Script.Builder
import Stackless.Script.Occurrence
import Stackless.Script.Span
import Stackless.Script.Tree
import Stackless.Session
import Stackless.Storage.Layout
import Stackless.Storage.Report
import Stackless.Storage.Variable
import Stackless.Symbols.Calls
import Stackless.Symbols.Scope
import Stackless.Symbols.Table
import Stackless.Trail
import Stackless.Proofs.Count
import Stackless.Proofs.Locations
import Stackless.Proofs.Layout
import Stackless.Proofs.Frames
import Stackless.Proofs.CallLog
import Stackless.Proofs.Recursion
import Stackless.Proofs.Declarations
import Stackless.Proofs.Usage
import Stackless.Proofs.Compilation
import Stackless.Proofs.StackDiscipline
import Stackless.Proofs.Calls
import Stackless.Proofs.NestedCalls
import Stackless.Proofs.Reentrancy
import Stackless.Proofs.Independence
import Stackless.Proofs.Storage
import Stackless.Proofs.Guards
import Stackless.Proofs.Hierarchy
import Stackless.Proofs.Outline
import Stackless.Proofs.ExtendsClause
import Stackless.Proofs.TypeTable
import Stackless.Proofs.Inheritance
import Stackless.Proofs.Resolution
import Stackless.Proofs.BaseChains
import Stackless.Proofs.BaseClasses
import Stackless.Proofs.Faults
import Stackless.Proofs.Nesting
import Stackless.Proofs.Preorder
import Stackless.Proofs.Contents
import Stackless.Proofs.Additions
import Stackless.Proofs.MemberScopes
import Stackless.Proofs.Inventory
import Stackless.Proofs.DeclaredClasses
import Stackless.Proofs.DeclaredScript
import Stackless.Proofs.Linking
import Stackless.Proofs.InheritedMembers
import Stackless.Proofs.Surroundings
import Stackless.Proofs.CallGraph
import Stackless.Proofs.QualifiedCalls
import Stackless.Proofs.Environments
import Stackless.Proofs.Tying
import Stackless.Proofs.LexicalScoping
import Stackless.Proofs.Consistency
import Stackless.Proofs.ItemWrites
import Stackless.Proofs.Targets
import Stackless.Proofs.Rosters
import Stackless.Proofs.OrderlyScripts
import Stackless.Proofs.Census
import Stackless.Proofs.Resemblance
import Stackless.Proofs.Surveys
import Stackless.Proofs.Outcomes
import Stackless.Proofs.Summaries
import Stackless.Proofs.ItemOrder
import Stackless.Proofs.Allocation
import Stackless.Proofs.VariableDeclarations
import Stackless.Proofs.OutOfRangeWrites
import Stackless.Proofs.Enrolment
import Stackless.Proofs.ConstructorSelection
import Stackless.Proofs.CallHistory
import Stackless.Proofs.Digits
import Stackless.Proofs.Messages
import Stackless.Proofs.MemberKeys
import Stackless.Proofs.ReadingBack
import Stackless.Proofs.Phrases
import Stackless.Proofs.NumberText
import Stackless.Proofs.PrintedCode
import Stackless.Proofs.Reachability
import Stackless.Proofs.QualifiedNames
import Stackless.Proofs.ScopeTree
import Stackless.Proofs.ScopeFrames
import Stackless.Proofs.ScopeCreation
import Stackless.Proofs.Labels
import Stackless.Proofs.BuiltScripts
import Stackless.Proofs.CallEdges
