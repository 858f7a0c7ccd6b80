import Diffingo.Codec.Describes

/-!
# Reading a unit

A reader goes through the items of a unit and takes from the input what each of them asks for. It
knows neither labels nor areas: it either comes to the end of the items or finds the input too
short. The generated parser with a large enough area computes what the reader does.
-/

namespace Diffingo.Codec

open CInteger ByteMemory Resumable Diffingo.Spec Diffingo.Runtime Diffingo.Generation

/-- How far reading gets: the input is too short, or the unit and the position after the items. -/
inductive Read
  | short
  | next (m : UnitMemory) (pos : Int)

def Read.andThen (r : Read) (k : UnitMemory → Int → Option Read) : Option Read :=
  match r with
  | .short => some .short
  | .next m p => k m p

/-- The number of bytes a field takes from the input. -/
def FieldKind.size (env : Env) (m : UnitMemory) : FieldKind → Option (Nat × UnitMemory)
  | .int t _ | .cast t _ _ => some (t.width / 8, m)
  | .copy e | .range e => evalLength env e m

/-- The member of a field that has been read from `n` bytes at `p`. -/
def FieldKind.stored (memory : Memory) (p : Int) (n : Nat) (c : Cell) : FieldKind → Cell
  | .int t bo => { c with int := parsedInt t bo memory p }
  | .cast t bo ty => castCell ty (parsedInt t bo memory p) c
  | .copy _ => { c with len_ := n, data_ := slice memory p n }
  | .range _ => { c with len_ := n, start_ := p }

/-- What a reader knows of a unit: the struct and the kinds of the fields. -/
structure Schema where
  env : Env
  kind : AtomicField → Option FieldKind

def schema (o : Options) (u : UnitType) : Schema := ⟨unitEnv o u, fieldKind o u⟩

namespace Schema

variable (c : Schema) (memory : Memory) (e : Int)

/-- Read one field of the given kind. -/
def readField (k : FieldKind) (x : String) (m : UnitMemory) (p : Int) : Option Read :=
  (k.size c.env m).map fun r =>
    if e - p < r.1 then .short
    else .next (Function.update r.2 x (k.stored memory p r.1 (r.2 x))) (p + r.1)

def readFields : List AtomicField → UnitMemory → Int → Option Read
  | [], m, p => some (.next m p)
  | f :: fs, m, p =>
    (c.kind f).bind fun k => (c.readField memory e k f.id m p).bind (·.andThen (readFields fs))

/-- Initialise a variable. -/
def readVariable (v : Variable) (m : UnitMemory) : Option UnitMemory :=
  match parseExpression v with
  | none => some m
  | some ex =>
    (assignTo ((c.env.members v.id).map (v.id, ·)) (typeOf c.env ex) (eval c.env ex) m).map (·.2)

/-- The fields of the case that a switch selects, and the unit after its expression. -/
def selectCase (ex : Expr) (s : Switch) (m : UnitMemory) :
    Option (UnitMemory × List AtomicField) :=
  ((switchGuard ex s).select c.env m).map fun r => (r.1, selectedFields s.cases r.2)

def readItem (i : Item) (m : UnitMemory) (p : Int) : Option Read :=
  match i with
  | .property _ => some (.next m p)
  | .field f => c.readFields memory e [f] m p
  | .var v => (c.readVariable v m).map (.next · p)
  | .switch s =>
    match s.expression with
    | none => some (.next m p)
    | some ex => (c.selectCase ex s m).bind fun r => c.readFields memory e r.2 r.1 p

def readItems : List Item → UnitMemory → Int → Option Read
  | [], m, p => some (.next m p)
  | i :: rest, m, p => (c.readItem memory e i m p).bind (·.andThen (readItems rest))

end Schema

section Readers

variable {o : Options} {u : UnitType} {memory : Memory} {e : Int}

/-- A length without side effects is found without changing the unit. -/
theorem size_keeps {k : FieldKind} (hpure : ∀ ex ∈ k.length, ex.sideEffectFree = true)
    {m : UnitMemory} {r : Nat × UnitMemory} (hr : k.size (unitEnv o u) m = some r) : r.2 = m := by
  cases k with
  | int t bo =>
    cases hr
    rfl
  | cast t bo ty =>
    cases hr
    rfl
  | copy ex => exact (evalLength_stable rfl (hpure ex rfl) m (fun _ _ => rfl) hr).1
  | range ex => exact (evalLength_stable rfl (hpure ex rfl) m (fun _ _ => rfl) hr).1

/-- Reading fields changes their members only. -/
theorem readFields_keeps {fs : List AtomicField}
    (hpure : ∀ f ∈ fs, ∀ ex ∈ (fieldKind o u f).bind FieldKind.length, ex.sideEffectFree = true)
    {m m' : UnitMemory} {p q : Int}
    (hread : (schema o u).readFields memory e fs m p = some (.next m' q)) {x : String}
    (hx : x ∉ fs.map (·.id)) : m' x = m x := by
  induction fs generalizing m p with
  | nil =>
    cases hread
    rfl
  | cons f fs ih =>
    obtain ⟨hne, hx⟩ : x ≠ f.id ∧ x ∉ fs.map (·.id) := by simpa using hx
    obtain ⟨k, hk, hread⟩ := Option.bind_eq_some_iff.mp hread
    obtain ⟨r, hr, hread⟩ := Option.bind_eq_some_iff.mp hread
    obtain ⟨y, hy, rfl⟩ := Option.map_eq_some_iff.mp hr
    change fieldKind o u f = some k at hk
    have hkeeps : y.2 = m := size_keeps
      (fun ex hex => hpure f List.mem_cons_self ex (by simpa [hk] using hex)) hy
    split at hread
    · cases hread
    · rw [ih (fun g hg => hpure g (List.mem_cons_of_mem _ hg)) hread hx,
        Function.update_of_ne hne, hkeeps]

/-- Reading a variable changes this variable only. -/
theorem readVariable_keeps {v : Variable}
    (hpure : ∀ ex ∈ parseExpression v, ex.sideEffectFree = true) {m m' : UnitMemory}
    (hread : (schema o u).readVariable v m = some m') {x : String} (hx : x ≠ v.id) :
    m' x = m x := by
  unfold Schema.readVariable at hread
  split at hread
  · cases hread
    rfl
  · rename_i ex hex
    obtain ⟨r, hr, rfl⟩ := Option.map_eq_some_iff.mp hread
    obtain ⟨-, -, -, -, hother, -⟩ := assign_variable (hpure ex hex) hr
    exact hother x hx

theorem fieldsOrdered_pure {fs : List AtomicField} {later : List String}
    (h : FieldsOrdered o u fs later) {f : AtomicField} (hf : f ∈ fs) :
    ∀ ex ∈ (fieldKind o u f).bind FieldKind.length, ex.sideEffectFree = true := by
  induction fs with
  | nil => cases hf
  | cons g fs ih =>
    rcases List.mem_cons.mp hf with rfl | hf
    · exact fun ex hex => (h.1 ex hex).pure
    · exact ih h.2 hf

/-- Reading an item changes its members only. -/
theorem readItem_keeps {i : Item} {rest : List Item} (hordered : ItemsOrdered o u (i :: rest))
    {m m' : UnitMemory} {p q : Int}
    (hread : (schema o u).readItem memory e i m p = some (.next m' q)) {x : String}
    (hx : x ∉ i.memberIds) : m' x = m x := by
  cases i with
  | property a =>
    cases hread
    rfl
  | field f => exact readFields_keeps (fun _ hg => fieldsOrdered_pure hordered.1 hg) hread hx
  | var v =>
    obtain ⟨m₁, hm₁, heq⟩ := Option.map_eq_some_iff.mp hread
    cases heq
    exact readVariable_keeps hordered.1 hm₁ (by simpa [Item.memberIds] using hx)
  | switch s =>
    unfold Schema.readItem at hread
    cases hexpr : s.expression with
    | none =>
      simp only [hexpr] at hread
      cases hread
      rfl
    | some ex =>
      simp only [hexpr] at hread
      obtain ⟨_, hsel, hfields⟩ := Option.bind_eq_some_iff.mp hread
      obtain ⟨⟨m₁, i⟩, hguard, rfl⟩ := Option.map_eq_some_iff.mp hsel
      obtain ⟨rfl, -⟩ := select_stable rfl (hordered.1 ex hexpr).pure m (fun _ _ => rfl) hguard
      rcases selectedFields_cases s.cases i with hnil | ⟨c, hc, hcase⟩
      · rw [hnil] at hfields
        cases hfields
        rfl
      · rw [hcase] at hfields
        refine readFields_keeps (fun _ hg => fieldsOrdered_pure (hordered.2.1 c hc) hg) hfields
          fun hx' => hx ?_
        obtain ⟨f, hf, rfl⟩ := List.mem_map.mp hx'
        exact List.mem_map.mpr ⟨f, List.mem_flatMap.mpr ⟨c, hc, hf⟩, rfl⟩

theorem readFields_inside {c : Schema} {fs : List AtomicField} {m m' : UnitMemory} {p q : Int}
    (hp : p ≤ e) (hread : c.readFields memory e fs m p = some (.next m' q)) : p ≤ q ∧ q ≤ e := by
  induction fs generalizing m p with
  | nil =>
    cases hread
    exact ⟨le_refl _, hp⟩
  | cons f fs ih =>
    obtain ⟨k, -, hread⟩ := Option.bind_eq_some_iff.mp hread
    obtain ⟨r, hr, hread⟩ := Option.bind_eq_some_iff.mp hread
    obtain ⟨y, -, rfl⟩ := Option.map_eq_some_iff.mp hr
    split at hread
    · cases hread
    · have := ih (by omega) hread
      omega

/-- The reader goes forwards and stays in the input. -/
theorem readItem_inside {c : Schema} {i : Item} {m m' : UnitMemory} {p q : Int} (hp : p ≤ e)
    (hread : c.readItem memory e i m p = some (.next m' q)) : p ≤ q ∧ q ≤ e := by
  have hstay : ∀ {m₁ : UnitMemory}, Read.next m₁ p = .next m' q → p ≤ q ∧ q ≤ e := by
    intro m₁ heq
    cases heq
    exact ⟨le_refl p, hp⟩
  cases i with
  | property a => exact hstay (Option.some.inj hread)
  | field f => exact readFields_inside hp hread
  | var v =>
    obtain ⟨m₁, -, heq⟩ := Option.map_eq_some_iff.mp hread
    exact hstay heq
  | switch s =>
    simp only [Schema.readItem] at hread
    split at hread
    · exact hstay (Option.some.inj hread)
    · obtain ⟨r, -, hfields⟩ := Option.bind_eq_some_iff.mp hread
      exact readFields_inside hp hfields

theorem itemsOrdered_tail {i : Item} {rest : List Item} (h : ItemsOrdered o u (i :: rest)) :
    ItemsOrdered o u rest := by
  cases i with
  | property a => exact h
  | field f => exact h.2
  | var v => exact h.2
  | switch s => exact h.2.2

theorem readItems_keeps {items : List Item} (hordered : ItemsOrdered o u items)
    {m m' : UnitMemory} {p q : Int}
    (hread : (schema o u).readItems memory e items m p = some (.next m' q)) {x : String}
    (hx : x ∉ memberIds items) : m' x = m x := by
  induction items generalizing m p with
  | nil =>
    cases hread
    rfl
  | cons i rest ih =>
    obtain ⟨r, hr, hrest⟩ := Option.bind_eq_some_iff.mp hread
    cases r with
    | short => cases hrest
    | next m₁ p₁ =>
      have hi : x ∉ i.memberIds := fun hx' => hx (List.mem_append_left _ hx')
      rw [ih (itemsOrdered_tail hordered) hrest fun hx' => hx (List.mem_append_right _ hx'),
        readItem_keeps hordered hr hi]

theorem readItems_inside {c : Schema} {items : List Item} {m m' : UnitMemory} {p q : Int}
    (hp : p ≤ e) (hread : c.readItems memory e items m p = some (.next m' q)) : p ≤ q ∧ q ≤ e := by
  induction items generalizing m p with
  | nil =>
    cases hread
    exact ⟨le_refl _, hp⟩
  | cons i rest ih =>
    obtain ⟨r, hr, hread⟩ := Option.bind_eq_some_iff.mp hread
    cases r with
    | short => cases hread
    | next m₁ p₁ =>
      obtain ⟨h₁, h₂⟩ := readItem_inside hp hr
      obtain ⟨h₃, h₄⟩ := ih h₂ hread
      exact ⟨h₁.trans h₃, h₄⟩

theorem readField_describes {c : Schema} (hdollar : c.env.dollar = none) {k : FieldKind} {x : String}
    {ty : CType} (hk : k.HasMember ty)
    (hlen : ∀ ex ∈ k.length, Undisturbed [x] ex ∧ SmallLength c.env ex) {m m' : UnitMemory}
    {p q : Int} (hread : c.readField memory e k x m p = some (.next m' q)) :
    FieldDescribes c.env memory m' k x p q := by
  obtain ⟨⟨n, m₁⟩, hr, hread⟩ := Option.map_eq_some_iff.mp hread
  split at hread
  · cases hread
  · cases hread
    -- a length is still the same after the field has been stored
    have hlength : ∀ ex ∈ k.length, ∀ c', evalLength c.env ex m = some (n, m₁) →
        evalLength c.env ex (Function.update m₁ x c') = some (n, Function.update m₁ x c') ∧
          n < 2 ^ 63 := by
      intro ex hex c' heval
      obtain ⟨⟨hpure, hmem⟩, hsmall⟩ := hlen ex hex
      obtain rfl := (evalLength_stable hdollar hpure m (fun _ _ => rfl) heval).1
      exact ⟨(evalLength_stable hdollar hpure _ (fun y hy =>
        Function.update_of_ne (fun heq => hmem y hy (by simp [heq])) _ _) heval).2,
        hsmall _ _ heval⟩
    cases k with
    | int t bo =>
      cases hr
      refine ⟨?_, rfl⟩
      simp [FieldKind.stored, Cell.read, CType.convert, parsedInt]
    | cast t bo ty' =>
      cases hr
      obtain ⟨rfl, hscalar, -⟩ := hk
      refine ⟨?_, rfl⟩
      obtain ⟨w, hw⟩ : ∃ w, ty.convert (parsedInt t bo memory p) = some w := by
        cases ty <;> simp_all [CType.convert, CType.isScalar]
      have hw' := CType.convert_convert hw
      cases ty <;> simp_all [FieldKind.stored, castCell, Cell.read, CType.isScalar]
    | copy ex =>
      obtain ⟨heval, hn⟩ := hlength ex rfl _ hr
      simpa [FieldDescribes, FieldKind.stored] using And.intro heval hn
    | range ex =>
      obtain ⟨heval, hn⟩ := hlength ex rfl _ hr
      simpa [FieldDescribes, FieldKind.stored] using And.intro heval hn

/-- The fields of a case that have been read are described in every unit that keeps them. -/
theorem readFields_describe {fs : List AtomicField} (hfs : ∀ f ∈ fs, Declared o u f)
    {later : List String} (hnodup : (fs.map (·.id) ++ later).Nodup)
    (hord : FieldsOrdered o u fs later) (hsmall : SmallLengths o u fs) {m m' : UnitMemory} {p q : Int}
    (hread : (schema o u).readFields memory e fs m p = some (.next m' q)) {m'' : UnitMemory}
    (hlater : ∀ y ∉ later, m'' y = m' y) : FieldsDescribe o u memory m'' fs p q := by
  induction fs generalizing m p with
  | nil =>
    cases hread
    exact .nil _
  | cons f fs ih =>
    obtain ⟨hf, hnodup⟩ := List.nodup_cons.mp hnodup
    obtain ⟨k, ty, hk, -, hmem⟩ := hfs f List.mem_cons_self
    change ((fieldKind o u f).bind _) = _ at hread
    rw [hk, Option.bind_some] at hread
    obtain ⟨r, hr, hread⟩ := Option.bind_eq_some_iff.mp hread
    cases r with
    | short => cases hread
    | next m₁ p₁ =>
      have hlen : ∀ ex ∈ k.length, Undisturbed (f.id :: (fs.map (·.id) ++ later)) ex ∧
          SmallLength (unitEnv o u) ex := fun ex hex =>
        ⟨hord.1 ex (by simpa [hk] using hex),
          hsmall f List.mem_cons_self ex (by simpa [hk] using hex)⟩
      have hstill : ∀ y ∉ fs.map (·.id) ++ later, m'' y = m₁ y := by
        intro y hy
        rw [List.mem_append, not_or] at hy
        rw [hlater y hy.2, readFields_keeps (fun _ hg => fieldsOrdered_pure hord.2 hg) hread hy.1]
      have hdesc := readField_describes (c := schema o u) rfl hmem (fun ex hex =>
        ⟨⟨(hlen ex hex).1.pure, fun y hy hx => (hlen ex hex).1.members y hy
          (by simp [List.mem_singleton.mp hx])⟩, (hlen ex hex).2⟩) hr
      refine .cons hk (hdesc.stable rfl (hstill f.id hf) fun ex hex => ?_)
        (ih (fun g hg => hfs g (List.mem_cons_of_mem f hg)) hnodup hord.2
          (fun g hg => hsmall g (List.mem_cons_of_mem f hg)) hread)
      exact ⟨(hlen ex hex).1.pure, fun y hy => hstill y fun hmem =>
        (hlen ex hex).1.members y hy (List.mem_cons_of_mem _ hmem)⟩

/-- A unit that has been read describes the bytes that have been read. -/
theorem readItems_describes {items : List Item}
    (hitems : ∀ i ∈ items, ∀ f ∈ i.fields, Declared o u f) (hnodup : (memberIds items).Nodup)
    (hord : ItemsOrdered o u items) (hsmall : ∀ i ∈ items, SmallLengths o u i.fields)
    {m m' : UnitMemory} {p q : Int}
    (hread : (schema o u).readItems memory e items m p = some (.next m' q)) :
    Describes o u memory m' items p q := by
  induction items generalizing m p with
  | nil =>
    cases hread
    exact .nil _
  | cons i rest ih =>
    have hrest := fun j hj => hitems j (List.mem_cons_of_mem i hj)
    have hsmall' := fun j hj => hsmall j (List.mem_cons_of_mem i hj)
    rw [show memberIds (i :: rest) = i.memberIds ++ memberIds rest from List.flatMap_cons,
      List.nodup_append] at hnodup
    obtain ⟨hnodup₁, hnodup₂, hdisj⟩ := hnodup
    have hord' := itemsOrdered_tail hord
    obtain ⟨r, hr, hread⟩ := Option.bind_eq_some_iff.mp hread
    cases r with
    | short => cases hread
    | next m₁ p₁ =>
      have hdesc := ih hrest hnodup₂ hord' hsmall' hread
      have hkeeps : ∀ y ∉ memberIds rest, m' y = m₁ y := fun y hy => readItems_keeps hord' hread hy
      have hfields : ∀ fs : List AtomicField, (∀ f ∈ fs, f ∈ i.fields) → (fs.map (·.id)).Nodup →
          (∀ x ∈ fs.map (·.id), x ∈ i.memberIds) → FieldsOrdered o u fs (memberIds rest) →
          ∀ {m : UnitMemory}, (schema o u).readFields memory e fs m p = some (.next m₁ p₁) →
          FieldsDescribe o u memory m' fs p p₁ := fun fs hfs hfsnodup hsub hfsord _ hfsread =>
        readFields_describe (fun f hf => hitems i List.mem_cons_self f (hfs f hf))
          (List.nodup_append.mpr ⟨hfsnodup, hnodup₂, fun x hx y hy => hdisj x (hsub x hx) y hy⟩)
          hfsord (fun f hf => hsmall i List.mem_cons_self f (hfs f hf)) hfsread hkeeps
      cases i with
      | property a =>
        cases hr
        exact .property hdesc
      | field f =>
        exact .field (hfields [f] (fun g hg => hg) (List.nodup_singleton _) (fun x hx => hx) hord.1
          hr) hdesc
      | var v =>
        obtain ⟨m₂, hm₂, heq⟩ := Option.map_eq_some_iff.mp hr
        cases heq
        refine .var (fun ex hex hpure hmem => ?_) hdesc
        simp only [Schema.readVariable, show parseExpression v = some ex from hex] at hm₂
        obtain ⟨r, hassign, rfl⟩ := Option.map_eq_some_iff.mp hm₂
        obtain ⟨ty, val, hty, hval, hother, hread⟩ := assign_variable hpure hassign
        have hv : v.id ∉ memberIds rest := fun hv =>
          hdisj v.id (List.mem_singleton.mpr rfl) v.id hv rfl
        have hsame : ∀ y ∈ ex.members, m' y = m y := by
          intro y hy
          have hy' := hmem y hy
          rw [List.mem_cons, not_or] at hy'
          exact (hkeeps y hy'.2).trans (hother y hy'.1)
        exact ⟨ty, val, hty, (eval_stable rfl hpure hsame hval).2, by rw [hkeeps v.id hv, hread]⟩
      | switch s =>
        unfold Schema.readItem at hr
        obtain ⟨hexpr, hcases, -⟩ := hord
        cases he : s.expression with
        | none =>
          simp only [he] at hr
          cases hr
          exact .lookAhead he hdesc
        | some ex =>
          simp only [he] at hr
          obtain ⟨_, hsel, hfsread⟩ := Option.bind_eq_some_iff.mp hr
          obtain ⟨⟨m₂, j⟩, hguard, rfl⟩ := Option.map_eq_some_iff.mp hsel
          obtain ⟨hpure, hmem⟩ := hexpr ex he
          obtain ⟨rfl, -⟩ := select_stable rfl hpure m (fun _ _ => rfl) hguard
          have hsub : ∀ x ∈ (selectedFields s.cases j).map (·.id),
              x ∈ (Item.switch s).memberIds := by
            intro x hx
            obtain ⟨f, hf, rfl⟩ := List.mem_map.mp hx
            exact List.mem_map.mpr ⟨f, selectedFields_sub s.cases j f hf, rfl⟩
          have hchosen : ((selectedFields s.cases j).map (·.id)).Nodup ∧
              FieldsOrdered o u (selectedFields s.cases j) (memberIds rest) := by
            rcases selectedFields_cases s.cases j with hnil | ⟨c, hc, hc'⟩
            · rw [hnil]
              exact ⟨List.nodup_nil, trivial⟩
            · rw [hc']
              have hsublist : (c.items.map (·.id)).Sublist ((Item.switch s).memberIds) :=
                (List.sublist_flatten_of_mem (List.mem_map_of_mem hc)).map _
              exact ⟨hsublist.nodup hnodup₁, hcases c hc⟩
          have hlater : ∀ y ∈ ex.members, m' y = m₂ y := by
            intro y hy
            have hy' := hmem y hy
            rw [List.mem_append, not_or] at hy'
            rw [hkeeps y hy'.2]
            exact readFields_keeps (fun _ hg => fieldsOrdered_pure hchosen.2 hg) hfsread
              fun hy => hy'.1 (hsub y hy)
          refine .switch he ?_ (hfields _ (selectedFields_sub s.cases j) hchosen.1 hsub hchosen.2
            hfsread) hdesc
          have hguard' : (switchGuard ex s).select (unitEnv o u) m' = some (m', j) :=
            (select_stable rfl hpure m' hlater hguard).2
          simp [switchCase, hguard']

end Readers

/-! ## The parser -/

/-- The rest of the buffer lies in the address space. -/
structure Inside (e : Int) (d : ParserData) : Prop where
  le : d.pos ≤ e
  size : e - d.pos < 2 ^ 63

/-- The rest of the buffer lies in the address space and, if `roomy`, fits in the area. -/
structure Ready (roomy : Prop) (e : Int) (d : ParserData) : Prop extends Inside e d where
  area : roomy → e - d.pos ≤ d.area.space

abbrev Roomy (e : Int) (d : ParserData) : Prop := Ready True e d

/-- The state of the parser after a read. -/
def Reached (roomy : Prop) (e : Int) (m : UnitMemory) (p : Int) (d : ParserData) : Prop :=
  d.unit = m ∧ d.pos = p ∧ Ready roomy e d

/-- A step of the parser that agrees with a read. -/
def StepMatches (roomy : Prop) (e : Int) : Read → Step ParserData ParseResult → Prop
  | .short, .stop r _ => r = .outOfData
  | .next m p, .next d => Reached roomy e m p d
  | _, _ => False

/-- A run of the parser that agrees with a read. -/
def Matches (roomy : Prop) (e : Int) : Read → Outcome Label ParserData ParseResult → Prop
  | .short, .stopped r _ _ => r = .outOfData
  | .next m p, .done _ d => Reached roomy e m p d
  | _, _ => False

/-- The parser does what the reader does, or it finds the area full for lack of room. -/
def Follows (roomy : Prop) (e : Int) (a : Option Read)
    (b : Option (Outcome Label ParserData ParseResult)) : Prop :=
  (¬ roomy ∧ ∃ l d, b = some (.stopped .areaFull l d)) ∨ Option.Rel (Matches roomy e) a b

section Parser

variable {o : Options} {u : UnitType} {memory : Memory} {e : Int} {roomy : Prop}

theorem Ready.advance {d : ParserData} (hd : Ready roomy e d) {m : UnitMemory} {n : Nat}
    (hn : ¬ e - d.pos < n) : Reached roomy e m (d.pos + n) ⟨m, d.area, d.pos + n⟩ := by
  obtain ⟨⟨hle, hsize⟩, harea⟩ := hd
  refine ⟨rfl, rfl, ⟨by dsimp only; omega, by dsimp only; omega⟩, fun hroomy => ?_⟩
  have := harea hroomy
  dsimp only
  omega

/-- The instruction of a field does what the reader does. -/
theorem run_read_field (cx : ParserContext) {k : FieldKind} {x : String} {ty : CType}
    (hx : cx.env.members x = some ty) (hk : k.HasMember ty)
    {d : ParserData} (hsmall : ∀ ex ∈ k.length, ∀ r, evalLength cx.env ex d.unit = some r →
      r.1 < 2 ^ 63) (kind : AtomicField → Option FieldKind) (hd : Ready roomy e d) :
    (¬ roomy ∧ ∃ d', runParseBody cx e (k.parseCode x) {} d = some (.stop .areaFull d')) ∨
      Option.Rel (StepMatches roomy e)
        (Schema.readField ⟨cx.env, kind⟩ cx.memory e k x d.unit d.pos)
        (runParseBody cx e (k.parseCode x) {} d) := by
  have hle := hd.le
  have hsize := hd.size
  cases k with
  | int t bo =>
    obtain ⟨rfl, -⟩ := hk
    rw [run_parse_int bo hx, shortOf_eq hle hsize]
    refine .inr (.some ?_)
    by_cases hshort : e - d.pos < (t.width / 8 : Nat)
    · simp only [hshort, if_true, decide_true]
      rfl
    · simp only [hshort, if_false, decide_false, Bool.false_eq_true]
      exact hd.advance hshort
  | cast t bo ty' =>
    obtain ⟨rfl, hscalar, -⟩ := hk
    rw [run_parse_cast bo hx hscalar, shortOf_eq hle hsize]
    refine .inr (.some ?_)
    by_cases hshort : e - d.pos < (t.width / 8 : Nat)
    · simp only [hshort, if_true, decide_true]
      rfl
    · simp only [hshort, if_false, decide_false, Bool.false_eq_true]
      exact hd.advance hshort
  | copy ex =>
    rw [run_parse_copy hx hk]
    simp only [Schema.readField, FieldKind.size]
    cases hr : evalLength cx.env ex d.unit with
    | none => exact .inr .none
    | some r =>
      have hn : r.1 < 2 ^ 63 := hsmall ex rfl _ hr
      simp only [Option.map_some, shortOfLength_eq hn, decide_eq_true_eq]
      by_cases hshort : e - d.pos < r.1
      · simp only [hshort, if_true]
        exact .inr (.some rfl)
      · simp only [hshort, if_false, ssize_of_lt hn]
        by_cases hspace : r.1 ≤ d.area.space
        · obtain ⟨area, halloc, hspace'⟩ := UnitArea.allocate_of_le hspace
          rw [halloc]
          refine .inr (.some ⟨rfl, rfl, ⟨by dsimp only; omega, by dsimp only; omega⟩, fun hroomy => ?_⟩)
          have := hd.area hroomy
          dsimp only
          omega
        · rw [UnitArea.allocate_eq_none.mpr (not_le.mp hspace)]
          refine .inl ⟨fun hroomy => ?_, _, rfl⟩
          have := hd.area hroomy
          omega
  | range ex =>
    obtain rfl : ty = .varStreamRange := hk
    rw [run_parse_range hx]
    simp only [Schema.readField, FieldKind.size]
    cases hr : evalLength cx.env ex d.unit with
    | none => exact .inr .none
    | some r =>
      have hn : r.1 < 2 ^ 63 := hsmall ex rfl _ hr
      refine .inr (.some ?_)
      simp only [shortOfLength_eq hn, decide_eq_true_eq]
      by_cases hshort : e - d.pos < r.1
      · simp only [hshort, if_true]
        rfl
      · simp only [hshort, if_false, ssize_of_lt hn]
        exact hd.advance hshort

theorem run_read_fields {n : Nat} {fs : List AtomicField} (hfs : ∀ f ∈ fs, Declared o u f)
    (hsmall : SmallLengths o u fs) {blocks : List (Block Label (List ParseStmt))}
    (hemit : emitFields (ParserGenerator.visitAtomicType o u) (ParserGenerator.label u) n fs =
      some blocks) (l : Option Label) {m : UnitMemory} {p : Int} {d : ParserData}
    (hd : Reached roomy e m p d) :
    Follows roomy e ((schema o u).readFields memory e fs m p)
      (runBlocks (parserSemantics ⟨unitEnv o u, memory⟩) e blocks l d) := by
  induction fs generalizing n blocks l m p d with
  | nil =>
    cases hemit
    exact .inr (.some hd)
  | cons f fs ih =>
    obtain ⟨k, ty, hk, hty, hmem⟩ := hfs f (by simp)
    obtain ⟨body, hbody, hemit⟩ := Option.bind_eq_some_iff.mp hemit
    obtain ⟨blocks', hblocks', rfl⟩ := Option.map_eq_some_iff.mp hemit
    obtain rfl : k.parseCode f.id = body := by
      rw [(fieldKind_code hk).1] at hbody
      exact Option.some.inj hbody
    obtain ⟨rfl, rfl, hroomy⟩ := hd
    have hstep := run_read_field ⟨unitEnv o u, memory⟩ hty hmem
      (fun ex hex => hsmall f (by simp) ex (by simpa [hk] using hex) _) (fieldKind o u) hroomy
    change Follows roomy e ((fieldKind o u f).bind _) _
    rw [hk, Option.bind_some]
    simp only [runBlocks, parserSemantics]
    change _ ∨ Option.Rel _ ((schema o u).readField memory e k f.id d.unit d.pos) _ at hstep
    generalize (schema o u).readField memory e k f.id d.unit d.pos = a at hstep
    generalize runParseBody ⟨unitEnv o u, memory⟩ e (k.parseCode f.id) {} d = b at hstep
    rcases hstep with ⟨hfull, d', rfl⟩ | hstep
    · exact .inl ⟨hfull, _, _, rfl⟩
    cases hstep with
    | none => exact .inr .none
    | @some a b hab =>
      cases a with
      | short =>
        cases b with
        | next d' => cases hab
        | stop r d' => exact .inr (.some hab)
      | next m' p' =>
        cases b with
        | next d' =>
          exact ih (fun g hg => hfs g (List.mem_cons_of_mem _ hg))
            (fun g hg => hsmall g (List.mem_cons_of_mem _ hg)) hblocks' _ hab
        | stop r d' => cases hab

/-- A run that agrees with a read, followed by a run that agrees with the rest. -/
theorem matches_bind {a : Option Read} {b : Option (Outcome Label ParserData ParseResult)}
    (hab : Follows roomy e a b) {k : UnitMemory → Int → Option Read}
    {k' : Option Label → ParserData → Option (Outcome Label ParserData ParseResult)}
    (hk : ∀ m p l d, Reached roomy e m p d → Follows roomy e (k m p) (k' l d)) :
    Follows roomy e (a.bind (·.andThen k)) (b.bind (·.andThen k')) := by
  rcases hab with ⟨hfull, l, d, rfl⟩ | hab
  · exact .inl ⟨hfull, l, d, rfl⟩
  cases hab with
  | none => exact .inr .none
  | @some a b hab =>
    cases a with
    | short =>
      cases b with
      | done l d => cases hab
      | stopped r l d => exact .inr (.some hab)
    | next m p =>
      cases b with
      | done l d => exact hk m p l d hab
      | stopped r l d => cases hab

/-- The instructions of a variable set it. -/
theorem run_read_variable {v : Variable} {body : List ParseStmt}
    (hbody : ParserGenerator.visitVariable v = some body) (d : ParserData) :
    runParseBody ⟨unitEnv o u, memory⟩ e body {} d =
      ((schema o u).readVariable v d.unit).map fun m => .next ⟨m, d.area, d.pos⟩ := by
  rcases visitVariable_cases hbody with ⟨hnone, rfl⟩ | ⟨ex, hex, rfl⟩
  · simp [runParseBody, Schema.readVariable, hnone]
  · rw [run_parse_variable]
    simp only [Schema.readVariable, hex, Option.map_map]
    rfl

/-- The instructions of the items of a unit do what the reader does. -/
theorem run_read_items {n : Nat} {items : List Item}
    (hitems : ∀ i ∈ items, ∀ f ∈ i.fields, Declared o u f)
    (hsmall : ∀ i ∈ items, SmallLengths o u i.fields) {code : List ParserInstr}
    (hemit : ParserGenerator.parseItems o u n items = some code) (l : Option Label)
    {m : UnitMemory} {p : Int} {d : ParserData} (hd : Reached roomy e m p d) :
    Follows roomy e ((schema o u).readItems memory e items m p)
      (run (parserSemantics ⟨unitEnv o u, memory⟩) e code l d) := by
  unfold ParserGenerator.parseItems at hemit
  induction items generalizing n code l m p d with
  | nil =>
    cases hemit
    exact .inr (.some hd)
  | cons i rest ih =>
    have hrest := fun j hj => hitems j (List.mem_cons_of_mem i hj)
    have hsmall' := fun j hj => hsmall j (List.mem_cons_of_mem i hj)
    cases i with
    | property a => exact ih hrest hsmall' hemit l hd
    | field f =>
      obtain ⟨body, hbody, hemit⟩ := Option.bind_eq_some_iff.mp hemit
      obtain ⟨code', hcode', rfl⟩ := Option.map_eq_some_iff.mp hemit
      have hblocks : emitFields (ParserGenerator.visitAtomicType o u) (ParserGenerator.label u) n
          [f] = some [⟨ParserGenerator.label u (n + 1) f.id, body⟩] := by
        simp [emitFields, hbody]
      exact matches_bind (run_read_fields (hitems (.field f) List.mem_cons_self)
        (hsmall (.field f) List.mem_cons_self) hblocks none hd)
        fun m p l d hd => ih hrest hsmall' hcode' l hd
    | var v =>
      obtain ⟨b, hb, hemit⟩ := Option.bind_eq_some_iff.mp hemit
      obtain ⟨body, hbody, rfl⟩ := Option.map_eq_some_iff.mp hb
      obtain ⟨code', hcode', rfl⟩ := Option.map_eq_some_iff.mp hemit
      obtain ⟨rfl, rfl, hroomy⟩ := hd
      rw [run_eq_runFrom, runFrom_enter, runFrom_cons]
      simp only [parserSemantics, run_read_variable hbody, Schema.readItems, Schema.readItem]
      cases hm : (schema o u).readVariable v d.unit with
      | none => exact .inr .none
      | some m' => exact ih hrest hsmall' hcode' _ ⟨rfl, rfl, ⟨hroomy.le, hroomy.size⟩, hroomy.area⟩
    | switch s =>
      simp only [emitItems] at hemit
      simp only [Schema.readItems, Schema.readItem]
      cases he : s.expression with
      | none =>
        simp only [he] at hemit
        obtain ⟨code', hcode', rfl⟩ := Option.map_eq_some_iff.mp hemit
        exact ih hrest hsmall' hcode' _ hd
      | some ex =>
        simp only [he] at hemit
        obtain ⟨cases, hemitCases, hemit⟩ := Option.bind_eq_some_iff.mp hemit
        obtain ⟨code', hcode', rfl⟩ := Option.map_eq_some_iff.mp hemit
        obtain ⟨rfl, rfl, hroomy⟩ := hd
        rw [run_eq_runFrom, runFrom_select]
        simp only [parserSemantics, Schema.selectCase, schema]
        cases hsel : (switchGuard ex s).select (unitEnv o u) d.unit with
        | none => exact .inr .none
        | some r =>
          obtain ⟨n', hblocks⟩ := emitCases_chosen hemitCases r.2
          have hfs := selectedFields_sub s.cases r.2
          have hd : Reached roomy e r.1 d.pos ⟨r.1, d.area, d.pos⟩ :=
            ⟨rfl, rfl, ⟨hroomy.le, hroomy.size⟩, hroomy.area⟩
          exact matches_bind (run_read_fields
            (fun f hf => hitems (.switch s) List.mem_cons_self f (hfs f hf))
            (fun f hf => hsmall (.switch s) List.mem_cons_self f (hfs f hf)) hblocks _ hd)
            fun m p l d hd => ih hrest hsmall' hcode' l hd

/-- A run that ends has read the items. -/
theorem run_items_read {n : Nat} {items : List Item}
    (hitems : ∀ i ∈ items, ∀ f ∈ i.fields, Declared o u f)
    (hsmall : ∀ i ∈ items, SmallLengths o u i.fields) {code : List ParserInstr}
    (hemit : ParserGenerator.parseItems o u n items = some code) {l l' : Option Label}
    {d d' : ParserData} (hd : Inside e d)
    (h : run (parserSemantics ⟨unitEnv o u, memory⟩) e code l d = some (.done l' d')) :
    (schema o u).readItems memory e items d.unit d.pos = some (.next d'.unit d'.pos) := by
  have hfollows : Follows False e ((schema o u).readItems memory e items d.unit d.pos)
      (run (parserSemantics ⟨unitEnv o u, memory⟩) e code l d) :=
    run_read_items hitems hsmall hemit l ⟨rfl, rfl, hd, False.elim⟩
  rw [h] at hfollows
  rcases hfollows with ⟨-, l, d, hfull⟩ | hrel
  · cases hfull
  · generalize (schema o u).readItems memory e items d.unit d.pos = a at hrel ⊢
    cases hrel with
    | @some a _ hab =>
      cases a with
      | short => cases hab
      | next m p =>
        obtain ⟨rfl, rfl, -⟩ := hab
        rfl

/-- A first call on a buffer, with a parser state and an area that are large enough. -/
structure FreshCall (p : Parser) (inBufStart inBufEnd : Int) (w : ParserWorld) : Prop where
  fresh : w.state.instruction = none
  stack : Runtime.ParserState.blockSize < w.state.space
  le : inBufStart ≤ inBufEnd
  size : inBufEnd - inBufStart < 2 ^ 63
  area : p.unitSize + (inBufEnd - inBufStart) ≤ w.area.space

/-- A first call with a new area and a new parser state. -/
theorem freshCall_fresh {p : Parser} {inBufStart inBufEnd : Int} {areaSize stackSize : Nat}
    (h : areaSize < 2 ^ 63) (hstack : Runtime.ParserState.blockSize < stackSize)
    (hle : inBufStart ≤ inBufEnd) (harea : p.unitSize + (inBufEnd - inBufStart) ≤ areaSize) :
    FreshCall p inBufStart inBufEnd (.fresh areaSize stackSize h) where
  fresh := rfl
  stack := by simpa [ParserWorld.fresh, Runtime.ParserState.fresh, Runtime.ParserState.space]
  le := hle
  size := by omega
  area := by simpa [ParserWorld.fresh, UnitArea.space]

theorem FreshCall.parse_eq {p : Parser} {inBufStart inBufEnd : Int} {w : ParserWorld}
    (hw : FreshCall p inBufStart inBufEnd w) (memory : Memory) :
    ∃ w₁ area, w₁.state.peek = some w.area.allocated ∧
      Roomy inBufEnd ⟨w.heap w.area.allocated, area, inBufStart⟩ ∧
      p.parse memory inBufStart inBufEnd w =
        (run (parserSemantics (p.context memory)) inBufEnd p.code none
          ⟨w.heap w.area.allocated, area, inBufStart⟩).map
            (Parser.finish w₁ w.area.allocated inBufStart) := by
  obtain ⟨hfresh, hstack, hle, hsize, harea⟩ := hw
  obtain ⟨area, halloc, hspace⟩ := UnitArea.allocate_of_le (a := w.area) (n := p.unitSize) (by omega)
  refine ⟨⟨w.heap, area, { w.state with stack := some w.area.allocated :: w.state.stack },
    w.bytesRead⟩, area, rfl, ⟨⟨hle, hsize⟩, fun _ => by dsimp only; omega⟩, ?_⟩
  simp only [Parser.parse, hfresh, Runtime.ParserState.push, gt_iff_lt, hstack, if_true,
    Option.bind_some, halloc, Runtime.ParserState.setUnit, List.tail_cons]

/-- The result of a call that agrees with a read. -/
def CallMatches (unit : Nat) (inBufStart : Int) : Read → ParseResult × ParserWorld → Prop
  | .short, r => r.1 = .outOfData
  | .next m q, r => r.1 = .done ∧ r.2.bytesRead = q - inBufStart ∧ r.2.state.peek = some unit ∧
      r.2.heap unit = m

/-- A call of the generated parser returns what the reader finds. -/
theorem parse_reads (hu : Supported o u) (hsmall : ∀ i ∈ u.items, SmallLengths o u i.fields)
    (memory : Memory) {p : Parser} (hp : ParserGenerator.run o u = some p) {inBufStart inBufEnd : Int}
    {w : ParserWorld} (hw : FreshCall p inBufStart inBufEnd w) :
    Option.Rel (CallMatches w.area.allocated inBufStart)
      ((schema o u).readItems memory inBufEnd u.items (w.heap w.area.allocated) inBufStart)
      (p.parse memory inBufStart inBufEnd w) := by
  obtain ⟨code, hcode, rfl⟩ := Option.map_eq_some_iff.mp hp
  obtain ⟨w₁, area, hunit, hroomy, hparse⟩ := hw.parse_eq memory
  have hrun : Option.Rel (Matches True inBufEnd)
      ((schema o u).readItems memory inBufEnd u.items (w.heap w.area.allocated) inBufStart)
      (run (parserSemantics ⟨unitEnv o u, memory⟩) inBufEnd code none
        ⟨w.heap w.area.allocated, area, inBufStart⟩) :=
    (run_read_items (fun i hi f hf => hu.declared hi hf) hsmall hcode none
      ⟨rfl, rfl, hroomy⟩).resolve_left (by simp)
  rw [hparse]
  rw [← Option.map_id' (x := (schema o u).readItems memory inBufEnd u.items _ inBufStart)]
  refine rel_map_rel hrun fun a b hab => ?_
  cases a with
  | short =>
    cases b with
    | done l d => cases hab
    | stopped r l d => exact hab
  | next m q =>
    cases b with
    | done l d =>
      obtain ⟨rfl, rfl, -⟩ := hab
      exact ⟨rfl, rfl, hunit, by simp [Parser.finish]⟩
    | stopped r l d => cases hab

end Parser

end Diffingo.Codec
