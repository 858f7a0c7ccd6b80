import Diffingo.Spec.Module

/-!
# Reading a specification with its includes

`Compiler::run` parses the main file and merges the files it includes. The parser hands the global
declarations of a file to its module one by one; includes are collected by the driver. The result
has all declarations in order, but it is the first included module with that module's properties
only (`run_eq`).
-/

namespace Diffingo.Generation

open Diffingo.Spec

/-- The alternatives of `global_decl` in the grammar. An import has no effect. -/
inductive GlobalDecl
  | declaration (d : Declaration)
  | property (p : Attribute)
  | import_ (id : String)
  | include_ (file : String)
  deriving DecidableEq, Repr

/-- A specification file that parses. -/
structure SpecFile where
  id : String
  globals : List GlobalDecl
  deriving DecidableEq, Repr

namespace SpecFile

def declarations (f : SpecFile) : List Declaration :=
  f.globals.filterMap fun | .declaration d => some d | _ => none

def properties (f : SpecFile) : List Attribute :=
  f.globals.filterMap fun | .property p => some p | _ => none

def includes (f : SpecFile) : List String :=
  f.globals.filterMap fun | .include_ file => some file | _ => none

/-- The actions of the parser: each property is added where it stands, the declarations at the end
of the file. -/
def parse (f : SpecFile) : Module :=
  let m : Module := f.properties.foldl Module.addProperty { id := f.id }
  m.addDeclarations f.declarations

/-- The property that the file sets, the last one if it is set several times. -/
def property (f : SpecFile) (key : String) : Option Attribute :=
  f.properties.reverse.find? fun p => p.key = key

end SpecFile

namespace Compiler

/-- The body of the include loop. -/
def mergeInclude (m m2 : Module) : Module :=
  let m2 := m2.addDeclarations m.declarations
  -- the properties go back to `m`, which is given up in the next line
  let _m := m.properties.foldl Module.addProperty m
  m2

/-- `Compiler::run` up to the passes; `files` gives the included files, none for one that cannot be
opened. -/
def run (files : String → Option SpecFile) (main : SpecFile) : Option Module :=
  main.includes.reverse.foldlM (fun m incl => (files incl).map fun f => mergeInclude m f.parse)
    main.parse

end Compiler

/-! ## What the merge keeps -/

namespace SpecFile

theorem addProperties_property (m : Module) (props : List Attribute) (key : String) :
    (props.foldl Module.addProperty m).property key =
      (props.reverse.find? fun p => p.key = key).or (m.property key) := by
  induction props generalizing m with
  | nil => rfl
  | cons p props ih =>
    have hadd : (m.addProperty p).property key = if p.key = key then some p else m.property key :=
      lookupAttribute_addAttribute m.properties p key
    rw [List.foldl_cons, ih, hadd, List.reverse_cons, List.find?_append, Option.or_assoc]
    congr 1
    by_cases hp : p.key = key <;> simp [hp]

theorem parse_property (f : SpecFile) (key : String) : f.parse.property key = f.property key := by
  unfold parse
  rw [Module.addDeclarations_eq]
  change (f.properties.foldl Module.addProperty { id := f.id }).property key = f.property key
  rw [addProperties_property]
  exact Option.or_none

theorem addProperties_declarations (m : Module) (props : List Attribute) :
    (props.foldl Module.addProperty m).declarations = m.declarations := by
  induction props generalizing m with
  | nil => rfl
  | cons p props ih => exact ih _

theorem parse_declarations (f : SpecFile) :
    f.parse.declarations = f.declarations.map (·.setModule f.parse.properties) := by
  unfold parse
  rw [Module.addDeclarations_eq]
  dsimp only
  rw [addProperties_declarations, List.nil_append]

end SpecFile

namespace Compiler

theorem mergeInclude_eq (m m2 : Module) : mergeInclude m m2 = { m2 with
    declarations := m2.declarations ++ m.declarations.map (·.setModule m2.properties) } :=
  m2.addDeclarations_eq m.declarations

/-- The modules of the files, the last one merged first. -/
def mergeAll (main : SpecFile) : List SpecFile → Module
  | [] => main.parse
  | f :: fs => mergeInclude (mergeAll main fs) f.parse

theorem run_eq {files : String → Option SpecFile} {main : SpecFile} {included : List SpecFile}
    (h : main.includes.map files = included.map some) :
    run files main = some (mergeAll main included) := by
  unfold run
  generalize main.includes = names at h
  induction included generalizing names with
  | nil =>
    rw [List.map_eq_nil_iff.mp h]
    rfl
  | cons f included ih =>
    obtain ⟨name, names', rfl, hname, hnames⟩ := List.map_eq_cons_iff.mp h
    rw [List.reverse_cons, List.foldlM_append, ih names' hnames]
    simp [hname, mergeAll]

theorem mergeAll_declarations (main : SpecFile) (included : List SpecFile) :
    (mergeAll main included).declarations =
      (included.flatMap (·.declarations) ++ main.declarations).map
        (·.setModule (mergeAll main included).properties) := by
  induction included with
  | nil => exact main.parse_declarations
  | cons f included ih =>
    rw [mergeAll, mergeInclude_eq]
    dsimp only
    rw [ih, f.parse_declarations]
    simp [Declaration.setModule_setModule, Function.comp_def]

/-- The file whose properties the merged module has. -/
def root (main : SpecFile) : List SpecFile → SpecFile
  | [] => main
  | f :: _ => f

theorem mergeAll_property (main : SpecFile) (included : List SpecFile) (key : String) :
    (mergeAll main included).property key = (root main included).property key := by
  cases included with
  | nil => exact main.parse_property key
  | cons f included =>
    rw [mergeAll, mergeInclude_eq]
    exact f.parse_property key

/-- A module that has everything of the files it was merged from: all declarations once and in
order, and all properties, those of the main file with their values. -/
structure Complete (main : SpecFile) (included : List SpecFile) (m : Module) : Prop where
  declarations : m.declarations =
    (included.flatMap (·.declarations) ++ main.declarations).map (·.setModule m.properties)
  main : ∀ key a, main.property key = some a → m.property key = some a
  included : ∀ f ∈ included, ∀ key, (f.property key).isSome → (m.property key).isSome

/-- A file with a byte order for the whole module and an include. -/
def littleEndianFile : SpecFile where
  id := "Test"
  globals := [.include_ "types.dgo", .property ⟨"byteorder", some (.id ["ByteOrder", "little"])⟩,
    .declaration (.unit { id := "Record", items := [.field { id := "id", type := .integer 16 false }] })]

def typesFile : SpecFile where
  id := "Types"
  globals := [.declaration (.type "Id" (.integer 16 false))]

end Compiler

end Diffingo.Generation
