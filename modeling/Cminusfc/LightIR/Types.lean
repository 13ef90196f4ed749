import Cminusfc.LightIR.Ir
import Mathlib.Data.List.Forall2
import Mathlib.Logic.Function.Basic

/-!
# Type objects

Model of the types of a `Module`: `Module.cpp` and `Type.cpp` make a `Type` object once and hand out
its address ever after. `pointer_map_` is keyed by the address of the element type, `array_map_` by
that address and the number of elements, which the key holds as an `int`.

`Denotes m p t`: the object at the address `p` stands for the type `t`, element types included.

* `Interned`: no two objects of a module have the same fields.
* `requests_structural`: after any sequence of requests, equal addresses are equal types, so that
  `is_eq_type` and the assertion of `LoadInst` compare the types themselves.

Source: `src/lightir/Module.cpp` 6-102, `Type.cpp` 6-265. Out of scope: `print` and function types,
which `Module` does not intern.
-/

namespace Cminusfc.LightIR.Types

/-- A `Type *`. -/
abbrev TypePtr := Nat

/-- What a `Type` object holds besides its module. -/
inductive Object where
  | void
  | label
  | integer (numBits : Nat)
  | float
  | array (contained : TypePtr) (numElements : BitVec 32)
  | pointer (contained : TypePtr)
  deriving Repr, DecidableEq

/-- The objects the constructor of `Module` makes. -/
structure Base where
  voidTy : TypePtr
  labelTy : TypePtr
  int1Ty : TypePtr
  int32Ty : TypePtr
  float32Ty : TypePtr

/-- The part of a `Module` that deals with types. -/
structure Module where
  /-- The `Type` objects of the module. -/
  object : TypePtr → Option Object
  /-- The next address `new` returns. -/
  next : TypePtr
  base : Base
  pointerMap : TypePtr → Option TypePtr
  arrayMap : TypePtr × Int → Option TypePtr

/-- The constructor. -/
def Module.fresh : Module where
  object p := [Object.void, .label, .integer 1, .integer 32, .float][p]?
  next := 5
  base := ⟨0, 1, 2, 3, 4⟩
  pointerMap _ := none
  arrayMap _ := none

/-- `new`; the address is `m.next`. -/
def Module.new (m : Module) (o : Object) : Module :=
  { m with object := Function.update m.object m.next (some o), next := m.next + 1 }

/-- `get_pointer_type`. -/
def getPointerType (m : Module) (contained : TypePtr) : Except Fault (TypePtr × Module) :=
  match m.object contained with
  | none => .error .undefined
  | some _ =>
    match m.pointerMap contained with
    | some p => .ok (p, m)
    | none =>
      .ok (m.next, { m.new (.pointer contained) with
        pointerMap := Function.update m.pointerMap contained (some m.next) })

/-- `ArrayType::is_valid_element_type`. -/
def isValidElementType : Object → Bool
  | .integer _ | .array _ _ | .float => true
  | _ => false

/-- `get_array_type`. -/
def getArrayType (m : Module) (contained : TypePtr) (numElements : BitVec 32) :
    Except Fault (TypePtr × Module) :=
  match m.object contained with
  | none => .error .undefined
  | some o =>
    match m.arrayMap (contained, numElements.toInt) with
    | some p => .ok (p, m)
    | none =>
      if isValidElementType o then
        .ok (m.next, { m.new (.array contained numElements) with
          arrayMap := Function.update m.arrayMap (contained, numElements.toInt) (some m.next) })
      else .error .assertion

/-- What can be asked of a module. `PointerType::get` and `ArrayType::get` ask the module of the
element type. -/
inductive Request where
  | void | label | int1 | int32 | float | int32Ptr | floatPtr
  | pointer (contained : TypePtr)
  | array (contained : TypePtr) (numElements : BitVec 32)

/-- A request. -/
def request (m : Module) : Request → Except Fault (TypePtr × Module)
  | .void => .ok (m.base.voidTy, m)
  | .label => .ok (m.base.labelTy, m)
  | .int1 => .ok (m.base.int1Ty, m)
  | .int32 => .ok (m.base.int32Ty, m)
  | .float => .ok (m.base.float32Ty, m)
  | .int32Ptr => getPointerType m m.base.int32Ty
  | .floatPtr => getPointerType m m.base.float32Ty
  | .pointer contained => getPointerType m contained
  | .array contained numElements => getArrayType m contained numElements

/-- A sequence of requests, and the addresses they return. -/
def requests : Module → List Request → Except Fault (List TypePtr × Module)
  | m, [] => .ok ([], m)
  | m, r :: rs =>
    match request m r with
    | .error e => .error e
    | .ok (p, m) =>
      match requests m rs with
      | .error e => .error e
      | .ok (ps, m) => .ok (p :: ps, m)

/-- `is_eq_type`. -/
def isEqType (ty₁ ty₂ : TypePtr) : Bool := ty₁ == ty₂

/-- The assertions of `LoadInst`, for an address of type `ptr`. -/
def loadInst (m : Module) (ty ptr : TypePtr) : Except Fault Unit :=
  match m.object ptr with
  | none => .error .undefined
  | some (.pointer contained) => if ty = contained then .ok () else .error .assertion
  | some _ => .error .assertion

/-! ## The types behind the addresses -/

/-- The object at an address stands for a type. -/
inductive Denotes (m : Module) : TypePtr → Ty → Prop
  | void {p} (h : m.object p = some .void) : Denotes m p .void
  | label {p} (h : m.object p = some .label) : Denotes m p .label
  | int1 {p} (h : m.object p = some (.integer 1)) : Denotes m p .int1
  | int32 {p} (h : m.object p = some (.integer 32)) : Denotes m p .int32
  | float {p} (h : m.object p = some .float) : Denotes m p .float
  | array {p c n t} (h : m.object p = some (.array c n)) (hc : Denotes m c t) :
      Denotes m p (.array t n.toNat)
  | pointer {p c t} (h : m.object p = some (.pointer c)) (hc : Denotes m c t) :
      Denotes m p (.pointer t)

/-- The fields of the object a request asks for. -/
def Request.object (b : Base) : Request → Object
  | .void => .void
  | .label => .label
  | .int1 => .integer 1
  | .int32 => .integer 32
  | .float => .float
  | .int32Ptr => .pointer b.int32Ty
  | .floatPtr => .pointer b.float32Ty
  | .pointer contained => .pointer contained
  | .array contained numElements => .array contained numElements

/-- The element type. -/
def Object.contained : Object → Option TypePtr
  | .array c _ | .pointer c => some c
  | _ => none

/-- Where the module keeps the object with these fields. -/
def Module.lookup (m : Module) : Object → Option TypePtr
  | .void => some m.base.voidTy
  | .label => some m.base.labelTy
  | .integer b => if b = 1 then some m.base.int1Ty else if b = 32 then some m.base.int32Ty else none
  | .float => some m.base.float32Ty
  | .array c n => m.arrayMap (c, n.toInt)
  | .pointer c => m.pointerMap c

/-- The module finds every object by its fields; an element type is older than what it is the
element type of. -/
structure Interned (m : Module) : Prop where
  lookup : ∀ p o, m.object p = some o ↔ m.lookup o = some p
  older : ∀ p o, m.object p = some o → p < m.next ∧
    ∀ c ∈ o.contained, c < p ∧ (m.object c).isSome = true

variable {m m' : Module} {p q c : TypePtr} {o : Object} {t u : Ty} {r : Request}

theorem Interned.unique (h : Interned m) (hp : m.object p = some o) (hq : m.object q = some o) :
    p = q := by
  rw [h.lookup] at hp hq
  exact Option.some_inj.mp (hp.symm.trans hq)

theorem fresh_interned : Interned .fresh where
  lookup p o := by
    have hlow : ∀ p < 5, ∀ o, Module.fresh.object p = some o → Module.fresh.lookup o = some p := by
      decide
    constructor
    · intro h
      by_cases hp : p < 5
      · exact hlow p hp o h
      · have hnone : Module.fresh.object p = none :=
          List.getElem?_eq_none (by simpa using Nat.le_of_not_lt hp)
        rw [hnone] at h
        cases h
    · intro h
      cases o with
      | integer b =>
        simp only [Module.lookup] at h
        split at h
        · cases h
          subst b
          rfl
        · split at h
          · cases h
            subst b
            rfl
          · cases h
      | array | pointer => cases h
      | void | label | float =>
        cases h
        rfl
  older p o h := by
    have hp : p < 5 := (List.getElem?_eq_some_iff.mp h).1
    refine ⟨hp, fun c hc => ?_⟩
    have hnone : ∀ p < 5, ∀ o, Module.fresh.object p = some o → o.contained = none := by decide
    rw [hnone p hp o h] at hc
    cases hc

/-- Every object stands for a type. -/
theorem Interned.denotes (h : Interned m) : ∀ (p : TypePtr) (o : Object), m.object p = some o →
    ∃ t, Denotes m p t := by
  intro p
  induction p using Nat.strongRecOn with
  | ind p ih =>
    intro o ho
    have helem : ∀ c ∈ o.contained, ∃ t, Denotes m c t := by
      intro c hc
      obtain ⟨hlt, hsome⟩ := (h.older p o ho).2 c hc
      obtain ⟨o', ho'⟩ := Option.isSome_iff_exists.mp hsome
      exact ih c hlt o' ho'
    cases o with
    | void => exact ⟨_, .void ho⟩
    | label => exact ⟨_, .label ho⟩
    | float => exact ⟨_, .float ho⟩
    | integer b =>
      have hb := (h.lookup p _).mp ho
      simp only [Module.lookup] at hb
      split at hb
      · subst b
        exact ⟨_, .int1 ho⟩
      · split at hb
        · subst b
          exact ⟨_, .int32 ho⟩
        · cases hb
    | array c n =>
      obtain ⟨t, ht⟩ := helem c rfl
      exact ⟨_, .array ho ht⟩
    | pointer c =>
      obtain ⟨t, ht⟩ := helem c rfl
      exact ⟨_, .pointer ho ht⟩

/-- An address stands for one type. -/
theorem Denotes.type_unique (hp : Denotes m p t) : ∀ {u}, Denotes m p u → t = u := by
  induction hp with
  | void h | label h | int1 h | int32 h | float h =>
    intro u hu
    cases hu <;> simp_all
  | array h _ ih =>
    intro u hu
    cases hu with
    | array h' hc' =>
      rw [h] at h'
      cases h'
      rw [ih hc']
    | _ h' => simp [h] at h'
  | pointer h _ ih =>
    intro u hu
    cases hu with
    | pointer h' hc' =>
      rw [h] at h'
      cases h'
      rw [ih hc']
    | _ h' => simp [h] at h'

/-- A type stands at one address. -/
theorem Interned.address_unique (hm : Interned m) (hp : Denotes m p t) :
    ∀ {q}, Denotes m q t → p = q := by
  induction hp with
  | void h | label h | int1 h | int32 h | float h =>
    intro q hq
    cases hq
    exact hm.unique h ‹_›
  | @array p c n t h _ ih =>
    intro q hq
    generalize hk : n.toNat = k at hq
    cases hq with
    | @array _ c' n' _ h' hc' =>
      obtain rfl := ih hc'
      obtain rfl := BitVec.eq_of_toNat_eq hk
      exact hm.unique h h'
  | pointer h _ ih =>
    intro q hq
    cases hq with
    | pointer h' hc' =>
      obtain rfl := ih hc'
      exact hm.unique h h'

/-! ## Requests -/

/-- Objects stay as they are. -/
structure Grows (m m' : Module) : Prop where
  object : ∀ p o, m.object p = some o → m'.object p = some o
  base : m'.base = m.base

theorem Grows.refl (m : Module) : Grows m m := ⟨fun _ _ h => h, rfl⟩

theorem Grows.trans {m'' : Module} (h : Grows m m') (h' : Grows m' m'') : Grows m m'' :=
  ⟨fun p o ho => h'.object p o (h.object p o ho), h'.base.trans h.base⟩

theorem Interned.object_next (h : Interned m) : m.object m.next = none := by
  by_contra hne
  obtain ⟨o, ho⟩ := Option.ne_none_iff_exists'.mp hne
  exact absurd (h.older _ _ ho).1 (Nat.lt_irrefl _)

/-- **A new object**, entered where the module looks for it. -/
theorem Interned.new (h : Interned m) (hnone : m.lookup o = none)
    (hkids : ∀ c ∈ o.contained, (m.object c).isSome = true)
    (hobject : m'.object = Function.update m.object m.next (some o)) (hnext : m'.next = m.next + 1)
    (hbase : m'.base = m.base)
    (hlookup : ∀ o', m'.lookup o' = if o' = o then some m.next else m.lookup o') :
    Interned m' ∧ Grows m m' ∧ m'.object m.next = some o := by
  have hlt : ∀ c, (m.object c).isSome = true → c < m.next := by
    intro c hc
    obtain ⟨o', ho'⟩ := Option.isSome_iff_exists.mp hc
    exact (h.older c o' ho').1
  have hold : ∀ c o', m.object c = some o' → m'.object c = some o' := by
    intro c o' hc
    have hne : c ≠ m.next := Nat.ne_of_lt (h.older c o' hc).1
    rw [hobject, Function.update_of_ne hne, hc]
  have hself : m'.object m.next = some o := by rw [hobject, Function.update_self]
  refine ⟨⟨fun p o' => ?_, fun p o' hp => ?_⟩, ⟨hold, hbase⟩, hself⟩
  · rw [hlookup]
    by_cases hp : p = m.next
    · subst hp
      rw [hself, Option.some_inj]
      by_cases ho : o' = o
      · simp [ho]
      · rw [if_neg ho, ← h.lookup, h.object_next]
        exact iff_of_false (Ne.symm ho) (fun h => by cases h)
    · rw [hobject, Function.update_of_ne hp, h.lookup]
      by_cases ho : o' = o
      · subst ho
        rw [hnone, if_pos rfl, Option.some_inj]
        exact iff_of_false (fun h => by cases h) (Ne.symm hp)
      · rw [if_neg ho]
  · have hmem : ∀ c, (m.object c).isSome = true → (m'.object c).isSome = true := by
      intro c hc
      obtain ⟨o'', ho''⟩ := Option.isSome_iff_exists.mp hc
      exact Option.isSome_iff_exists.mpr ⟨o'', hold c o'' ho''⟩
    rw [hnext]
    by_cases hpn : p = m.next
    · subst hpn
      rw [hself] at hp
      cases hp
      exact ⟨Nat.lt_succ_self _, fun c hc => ⟨hlt c (hkids c hc), hmem c (hkids c hc)⟩⟩
    · rw [hobject, Function.update_of_ne hpn] at hp
      obtain ⟨hp', hc'⟩ := h.older p o' hp
      exact ⟨Nat.lt_succ_of_lt hp', fun c hc => ⟨(hc' c hc).1, hmem c (hc' c hc).2⟩⟩

theorem getPointerType_spec (h : Interned m) (hr : getPointerType m c = .ok (p, m')) :
    Interned m' ∧ Grows m m' ∧ m'.object p = some (.pointer c) := by
  unfold getPointerType at hr
  cases hc : m.object c with
  | none =>
    rw [hc] at hr
    cases hr
  | some o =>
    rw [hc] at hr
    cases hmap : m.pointerMap c with
    | some q =>
      simp only [hmap, Except.ok.injEq, Prod.mk.injEq] at hr
      obtain ⟨rfl, rfl⟩ := hr
      exact ⟨h, .refl m, (h.lookup _ _).mpr hmap⟩
    | none =>
      simp only [hmap, Except.ok.injEq, Prod.mk.injEq] at hr
      obtain ⟨rfl, rfl⟩ := hr
      refine h.new (o := .pointer c) hmap (fun c' hc' => ?_) rfl rfl rfl fun o' => ?_
      · cases hc'
        rw [hc]
        rfl
      · cases o' with
        | pointer c' => simp [Module.lookup, Function.update_apply]
        | _ => rfl

theorem getArrayType_spec {n : BitVec 32} (h : Interned m)
    (hr : getArrayType m c n = .ok (p, m')) :
    Interned m' ∧ Grows m m' ∧ m'.object p = some (.array c n) := by
  unfold getArrayType at hr
  cases hc : m.object c with
  | none =>
    rw [hc] at hr
    cases hr
  | some o =>
    rw [hc] at hr
    cases hmap : m.arrayMap (c, n.toInt) with
    | some q =>
      simp only [hmap, Except.ok.injEq, Prod.mk.injEq] at hr
      obtain ⟨rfl, rfl⟩ := hr
      exact ⟨h, .refl m, (h.lookup _ _).mpr hmap⟩
    | none =>
      simp only [hmap] at hr
      split at hr
      · simp only [Except.ok.injEq, Prod.mk.injEq] at hr
        obtain ⟨rfl, rfl⟩ := hr
        refine h.new (o := .array c n) hmap (fun c' hc' => ?_) rfl rfl rfl fun o' => ?_
        · cases hc'
          rw [hc]
          rfl
        · cases o' with
          | array c' n' => simp [Module.lookup, Function.update_apply, BitVec.toInt_inj]
          | _ => rfl
      · cases hr

/-- **One request** returns the address of an object with the fields asked for. -/
theorem request_spec (h : Interned m) (hr : request m r = .ok (p, m')) :
    Interned m' ∧ Grows m m' ∧ m'.object p = some (r.object m.base) := by
  cases r with
  | void | label | int1 | int32 | float =>
    cases hr
    exact ⟨h, .refl m, (h.lookup _ _).mpr rfl⟩
  | int32Ptr | floatPtr | pointer => exact getPointerType_spec h hr
  | array => exact getArrayType_spec h hr

/-- **A sequence of requests.** -/
theorem requests_spec : ∀ (rs : List Request) {m m' : Module} {ps : List TypePtr}, Interned m →
    requests m rs = .ok (ps, m') → Interned m' ∧ Grows m m' ∧
      List.Forall₂ (fun r p => m'.object p = some (r.object m'.base)) rs ps := by
  intro rs
  induction rs with
  | nil =>
    intro m m' ps h hr
    cases hr
    exact ⟨h, .refl m, .nil⟩
  | cons r rs ih =>
    intro m m' ps h hr
    simp only [requests] at hr
    cases h₁ : request m r with
    | error e =>
      rw [h₁] at hr
      cases hr
    | ok a =>
      obtain ⟨p, m₁⟩ := a
      simp only [h₁] at hr
      cases h₂ : requests m₁ rs with
      | error e =>
        rw [h₂] at hr
        cases hr
      | ok b =>
        obtain ⟨qs, m₂⟩ := b
        simp only [h₂, Except.ok.injEq, Prod.mk.injEq] at hr
        obtain ⟨rfl, rfl⟩ := hr
        obtain ⟨hi₁, hg₁, ho₁⟩ := request_spec h h₁
        obtain ⟨hi₂, hg₂, ho₂⟩ := ih hi₁ h₂
        refine ⟨hi₂, hg₁.trans hg₂, .cons ?_ ho₂⟩
        rw [hg₂.base, hg₁.base]
        exact hg₂.object _ _ ho₁

/-- **Equal addresses are equal types.** After any requests to a module, every address returned is
that of an object with the fields asked for, it stands for exactly one type, two addresses are equal
exactly if their types are, and a load has its type exactly if that is the element type of its
address. -/
theorem requests_structural {rs : List Request} {ps : List TypePtr}
    (h : requests .fresh rs = .ok (ps, m)) :
    List.Forall₂ (fun r p => m.object p = some (r.object m.base)) rs ps ∧
      (∀ p ∈ ps, ∃ t, Denotes m p t ∧ ∀ u, Denotes m p u → t = u) ∧
      (∀ p t q u, Denotes m p t → Denotes m q u → (isEqType p q = true ↔ t = u)) ∧
      ∀ ty t ptr u, Denotes m ty t → Denotes m ptr (.pointer u) →
        (loadInst m ty ptr = .ok () ↔ t = u) := by
  obtain ⟨hm, -, hasked⟩ := requests_spec rs fresh_interned h
  have heq : ∀ p t q u, Denotes m p t → Denotes m q u → (p = q ↔ t = u) := by
    intro p t q u hp hq
    constructor
    · rintro rfl
      exact hp.type_unique hq
    · rintro rfl
      exact hm.address_unique hp hq
  refine ⟨hasked, fun p hp => ?_, fun p t q u hp hq => ?_, fun ty t ptr u hty hptr => ?_⟩
  · obtain ⟨n, hn, rfl⟩ := List.mem_iff_getElem.mp hp
    have hn' : n < rs.length := by rwa [hasked.length_eq]
    obtain ⟨t, ht⟩ := hm.denotes _ _ (hasked.get hn' hn)
    exact ⟨t, ht, fun u hu => ht.type_unique hu⟩
  · rw [← heq p t q u hp hq, isEqType, beq_iff_eq]
  · cases hptr with
    | @pointer _ c _ hobject hc =>
      rw [← heq ty t c u hty hc]
      simp only [loadInst, hobject]
      split
      · exact iff_of_true rfl ‹_›
      · exact iff_of_false (fun h => by cases h) ‹_›

/-- `int *`, `int[10]`, its address, `int[10]` again. -/
theorem requests_structural_nested : ∃ m : Module,
    requests .fresh [.int32Ptr, .array 3 10, .pointer 6, .array 3 10] = .ok ([5, 6, 7, 6], m) ∧
      ∀ p t q u, Denotes m p t → Denotes m q u → (isEqType p q = true ↔ t = u) := by
  obtain ⟨m, hm⟩ : ∃ m, requests .fresh [.int32Ptr, .array 3 10, .pointer 6, .array 3 10] =
      .ok ([5, 6, 7, 6], m) := ⟨_, rfl⟩
  exact ⟨m, hm, (requests_structural hm).2.2.1⟩

end Cminusfc.LightIR.Types
