import Diffingo.Library.CInteger
import Diffingo.Library.ByteMemory
import Diffingo.Library.Resumable
import Diffingo.Library.Saturation
import Diffingo.Library.Grouping
import Diffingo.Library.Traversal
import Diffingo.Library.Infix
import Diffingo.Library.Precedence
import Diffingo.Library.Recursion
import Diffingo.Library.Forest
import Diffingo.Spec.Expression
import Diffingo.Spec.Unit
import Diffingo.Spec.Module
import Diffingo.Spec.Ast
import Diffingo.Spec.Clone
import Diffingo.Spec.Length
import Diffingo.Spec.Scope
import Diffingo.Spec.ScopeHeap
import Diffingo.Spec.Labels
import Diffingo.Spec.Visitor
import Diffingo.Spec.NodePtr
import Diffingo.Spec.ProcessAll
import Diffingo.Spec.ReverseOrder
import Diffingo.Spec.ItemChildren
import Diffingo.Runtime.UnitMemory
import Diffingo.Runtime.Parsing
import Diffingo.Runtime.Serializing
import Diffingo.Runtime.AreaMemory
import Diffingo.Runtime.StackMemory
import Diffingo.Generation.ExpressionTranslator
import Diffingo.Generation.ExpressionLemmas
import Diffingo.Generation.Comparisons
import Diffingo.Spec.Grammar
import Diffingo.Generation.CodeGenerator
import Diffingo.Generation.Instructions
import Diffingo.Generation.ParserGenerator
import Diffingo.Generation.Retry
import Diffingo.Generation.SerializerGenerator
import Diffingo.Generation.DependencyResolver
import Diffingo.Generation.InstantiationTypeGenerator
import Diffingo.Generation.SelfReplacer
import Diffingo.Generation.Instantiation
import Diffingo.Generation.Dependencies
import Diffingo.Generation.Recursion
import Diffingo.Generation.Partition
import Diffingo.Generation.Inheritance
import Diffingo.Generation.Errors
import Diffingo.Generation.Retargeting
import Diffingo.Generation.References
import Diffingo.Generation.IdResolver
import Diffingo.Generation.Resolution
import Diffingo.Generation.Binding
import Diffingo.Generation.Replacing
import Diffingo.Generation.Lambdas
import Diffingo.Generation.Passes
import Diffingo.Generation.Compiler
import Diffingo.Generation.ScopeBuilder
import Diffingo.Generation.ScopeEffects
import Diffingo.Memcached.Spec
import Diffingo.Codec.FieldCode
import Diffingo.Codec.Wire
import Diffingo.Codec.Describes
import Diffingo.Codec.Reading
import Diffingo.Codec.Prologue
import Diffingo.Codec.Incremental
import Diffingo.Codec.RoundTrip
import Diffingo.Memcached.RoundTrip
import Diffingo.Codec.Bounds
import Diffingo.Codec.Stream
import Diffingo.Codec.StaticLength
import Diffingo.Codec.WriteBack
import Diffingo.Codec.Truthful
import Diffingo.Codec.Rebuild
import Diffingo.Generation.Translator
import Diffingo.Util.Escapes
import Diffingo.Util.EscapeLanguage
import Diffingo.Generation.UnitScopes
import Diffingo.Generation.ParsedModule
import Diffingo.Generation.NameLookup
import Diffingo.Generation.Aliases
import Diffingo.Library.OrderedMap
import Diffingo.Util.Strings
import Diffingo.Spec.Identifiers
import Diffingo.Runtime.IntCodecs
import Diffingo.Util.Utf8
import Diffingo.Util.EscapeUtf8
import Diffingo.Generation.CompactUnit
import Diffingo.Codec.Compaction
import Diffingo.Codec.Boundaries
import Diffingo.Codec.Encoding
import Diffingo.Codec.Pointers
