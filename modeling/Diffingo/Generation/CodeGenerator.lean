import Diffingo.Generation.ExpressionTranslator
import Diffingo.Spec.Unit

/-!
# Unit structs

`CodeGenerator` declares one struct member per field and variable of a unit. With the
`input_pointers` option the member of a field the application cannot access is a
`var_stream_range`. The option `store_parsing_only` is on in every run of the compiler, so no member
is left out.
-/

namespace Diffingo.Generation

open CInteger Diffingo.Spec Diffingo.Runtime

structure Options where
  inputPointers : Bool := false
  deriving DecidableEq, Repr

/-- The type of the member for a field, as `addSingleUnitField` chooses it. -/
def fieldMemberType (o : Options) (f : AtomicField) : Option CType :=
  if !f.applicationAccessible && o.inputPointers then
    (cType f.type).map fun _ => .varStreamRange
  else cType f.type

/-- The members an item adds to the struct; a type without translation ends the compilation. -/
def itemMembers (o : Options) : Item → List (String × Option CType)
  | .field f => [(f.id, fieldMemberType o f)]
  | .switch s => s.fields.map fun f => (f.id, fieldMemberType o f)
  | .var v => [(v.id, cType v.type)]
  | .property _ => []

def unitMembers (o : Options) (u : UnitType) : List (String × Option CType) :=
  u.items.flatMap (itemMembers o)

/-- The environment of the expressions of a unit. -/
def unitEnv (o : Options) (u : UnitType) : Env where
  unit := u.id
  members x := ((unitMembers o u).lookup x).join

/-- The size of a member; it is also its alignment, up to eight bytes. -/
def memberSize : CType → Nat
  | .int t => t.width / 8
  | .bool => 1
  | .double => 8
  | .enum _ => 4
  | .varBytes | .varString | .varStreamRange => 16
  | .void => 1

def alignUp (n a : Nat) : Nat := (n + a - 1) / a * a

/-- The struct layout: members at aligned offsets, the size a multiple of the largest alignment and
never zero. -/
def structSize (members : List (String × Option CType)) : Nat :=
  let sizes := members.map fun p => (p.2.map memberSize).getD 1
  let offset := sizes.foldl (fun n k => alignUp n (min k 8) + k) 0
  max 1 (alignUp offset (sizes.foldl (fun a k => max a (min k 8)) 1))

theorem structSize_pos (members : List (String × Option CType)) : 0 < structSize members := by
  simp [structSize]

theorem unitMembers_ids (o : Options) (u : UnitType) :
    (unitMembers o u).map (·.1) = u.items.flatMap Item.memberIds := by
  unfold unitMembers
  rw [List.map_flatMap]
  congr 1
  funext i
  cases i <;> simp [itemMembers, Item.memberIds]

theorem lookup_of_mem {α : Type} {l : List (String × α)} (hl : (l.map (·.1)).Nodup) {x : String}
    {a : α} (h : (x, a) ∈ l) : l.lookup x = some a := by
  induction l with
  | nil => cases h
  | cons p l ih =>
    obtain ⟨hp, hl⟩ := List.nodup_cons.mp hl
    rcases List.mem_cons.mp h with rfl | h
    · simp
    · have hne : x ≠ p.1 := fun heq => hp (List.mem_map.mpr ⟨(x, a), h, heq⟩)
      rw [List.lookup_cons, beq_eq_false_iff_ne.mpr hne]
      exact ih hl h

/-- With distinct names a member has the type its item gives it. -/
theorem unitEnv_members {o : Options} {u : UnitType} (hu : (u.items.flatMap Item.memberIds).Nodup)
    {i : Item} (hi : i ∈ u.items) {x : String} {ty : Option CType} (h : (x, ty) ∈ itemMembers o i) :
    (unitEnv o u).members x = ty := by
  have hmem : (x, ty) ∈ unitMembers o u := List.mem_flatMap.mpr ⟨i, hi, h⟩
  simp only [unitEnv]
  rw [lookup_of_mem (by rw [unitMembers_ids]; exact hu) hmem]
  rfl

end Diffingo.Generation
