import ShaderLang.Main
import ShaderLang.Proofs.ConstantMeaning
import ShaderLang.Proofs.SoundProgram
import ShaderLang.Proofs.TypedProgram
import ShaderLang.Proofs.Advance
import ShaderLang.Proofs.Control
import ShaderLang.Proofs.Draft
import ShaderLang.Proofs.Route
import ShaderLang.Proofs.RoutedProgram
import ShaderLang.Proofs.Checker
import ShaderLang.Proofs.Misnamed
import ShaderLang.Proofs.Resolution
import ShaderLang.Proofs.Preservation
import ShaderLang.Proofs.LegibleProgram
import ShaderLang.Proofs.LocalNames
import ShaderLang.Proofs.Faithful
import ShaderLang.Proofs.Precedence
import ShaderLang.Proofs.Spacing
import ShaderLang.Proofs.ContainerLayout
import ShaderLang.Proofs.Operations
import ShaderLang.Proofs.Failure
import ShaderLang.Proofs.BlockNames
import ShaderLang.Proofs.Corruption
import ShaderLang.Proofs.Lens
import ShaderLang.Proofs.ScopeStack
import ShaderLang.Proofs.Peeking
import ShaderLang.Proofs.Storable
import ShaderLang.Proofs.Untyped
import ShaderLang.Proofs.Coercion
import ShaderLang.Proofs.Sizes
import ShaderLang.Proofs.Scripted
import ShaderLang.Proofs.Selects
