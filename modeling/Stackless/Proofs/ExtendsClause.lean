import Stackless.Proofs.Hierarchy
import Stackless.Proofs.Outline

/-!
# What an `extends` clause comes to

The clause of a class is judged when the class that it points to is complete, or open if it is
part of a cycle. `Begun.Verdict` lists the possible outcomes together with the reasons for them,
and `Begun.judged` says that one of them is what the compiler finds, without a fault.
-/

namespace Stackless

/-! ## The types in a type -/

namespace TypeRef

mutual

/-- A type and all types inside it. -/
def preorder : TypeRef → List TypeRef
  | .mk span name args => .mk span name args :: preorderInList args

def preorderInList : List TypeRef → List TypeRef
  | [] => []
  | t :: ts => t.preorder ++ preorderInList ts

end

theorem preorder_eq (t : TypeRef) : t.preorder = t :: preorderInList t.args := by
  cases t
  rfl

theorem preorderInList_eq (ts : List TypeRef) : preorderInList ts = ts.flatMap preorder := by
  induction ts with
  | nil => rfl
  | cons t ts ih => rw [preorderInList, ih, List.flatMap_cons]

mutual

theorem unknown_eq (known : String → Bool) (t : TypeRef) : t.unknown known =
    (t.preorder.filter fun t => !known t.name.name).map fun t => .unknownType t.name.name t.span := by
  cases t with
  | mk span name args =>
    rw [unknown, preorder, List.filter_cons, unknownInList_eq known args]
    cases h : known name.name <;> simp [TypeRef.name, TypeRef.span, h]

theorem unknownInList_eq (known : String → Bool) (ts : List TypeRef) : unknownInList known ts =
    ((preorderInList ts).filter fun t => !known t.name.name).map
      fun t => .unknownType t.name.name t.span := by
  cases ts with
  | nil => rfl
  | cons t ts =>
    rw [unknownInList, preorderInList, List.filter_append, List.map_append, t.unknown_eq known,
      unknownInList_eq known ts]

end

theorem unknownInList_eq_nil {known : String → Bool} {ts : List TypeRef} :
    unknownInList known ts = [] ↔ ∀ t ∈ preorderInList ts, known t.name.name = true := by
  simp [unknownInList_eq, List.filter_eq_nil_iff]

theorem mem_preorder (ref : TypeRef) : ref ∈ ref.preorder := by
  rw [preorder_eq]
  exact List.mem_cons_self

theorem mem_preorder_of_args {ref t : TypeRef} (h : t ∈ preorderInList ref.args) :
    t ∈ ref.preorder := by
  rw [preorder_eq]
  exact List.mem_cons_of_mem _ h

end TypeRef

/-! ## Entries -/

/-- The entry of a class when it is declared. -/
def ClassDef.entry (c : ClassDef) : TypeEntry := .ofClass c.name.name c.name.span c.isSealed

def Begun.entry (x : Begun) : TypeEntry := { x.source.entry with progress := .inProgress }

def Completed.entry (x : Completed) : TypeEntry :=
  { x.source.entry with
    generics := x.generics.map (·.key)
    base := x.base
    members := some x.scopes
    progress := .resolved }

/-- The type that has a key. -/
def Outline.type? (g : Outline) (key : Key) : Option TypeEntry := g.types.find? (·.key = key)

theorem Outline.Kept.type? {ρ : Type} {g : Outline} {s : Stage ρ} (K : g.Kept s) (key : Key) :
    s.work.symbols.type? key = g.type? key := by
  rw [Symbols.type?, K.types, Outline.type?]

theorem ClassDef.pointsTo_eq_some {g : Outline} {s : Stage Declarations} (K : g.Kept s)
    {c : ClassDef} {gs : List Generic} {b : Key} :
    c.pointsTo s.work.symbols gs = some b ↔ Begun.PointsTo g.roots ⟨c, gs⟩ b := by
  simp only [pointsTo, K.lookupType]
  constructor
  · intro h
    split at h
    · cases h
    · rename_i ref hbase
      split at h
      · cases h
      · rename_i hgeneric
        split at h
        · rename_i key hroot
          split at h <;> cases h
          rename_i hself
          exact ⟨ref, hbase, by simpa using hgeneric, hroot, hself⟩
        · cases h
  · rintro ⟨ref, hbase, hgeneric, hroot, hself⟩
    change c.base = some ref at hbase
    change Generic.isAmong gs ref.name.name = false at hgeneric
    change ¬ b = c.key at hself
    simp only [hbase, hgeneric, hroot, Bool.false_eq_true, if_false, if_neg hself]

/-! ## Verdicts -/

/-- The problem is about the `extends` clause of a class. -/
inductive ClassDef.Blames (c : ClassDef) (ref : TypeRef) : Problem → Prop where
  | invalid (reason : String) : Blames c ref (.invalidBase ref.name.name reason ref.span)
  | unknown {t : TypeRef} (h : t ∈ ref.preorder) :
    Blames c ref (.unknownType t.name.name t.span)
  | circular : Blames c ref (.circularInheritance c.name.name ref.span)

theorem ClassDef.blames_of_unknown {c : ClassDef} {ref : TypeRef} {known : String → Bool}
    {p : Problem} (h : p ∈ TypeRef.unknownInList known ref.args) :
    c.Blames ref p ∧ p.isCircularInheritance = false := by
  rw [TypeRef.unknownInList_eq] at h
  obtain ⟨t, ht, rfl⟩ := List.mem_map.mp h
  exact ⟨.unknown (TypeRef.mem_preorder_of_args (List.mem_filter.mp ht).1), rfl⟩

namespace Begun

/-- A class can extend another as far as the two of them are concerned. -/
def Fits (roots : String → Option Key) (x y : Begun) : Prop :=
  ∃ ref, x.source.base = some ref ∧ y.source.isSealed = false ∧
    ref.args.length = y.generics.length ∧
    ∀ t ∈ TypeRef.preorderInList ref.args,
      Generic.isAmong x.generics t.name.name = true ∨ (roots t.name.name).isSome = true

/-- What the `extends` clause comes to while the classes with keys in `pending` are open. -/
inductive Verdict (roots : String → Option Key) (pending : List Key) (done : List Completed)
    (x : Begun) : BaseClause → Prop where
  | absent (base : x.source.base = none) : Verdict roots pending done x .absent
  | refused {ref : TypeRef} {p : Problem} {ps : List Problem} (base : x.source.base = some ref)
      (blames : ∀ q ∈ p :: ps, x.source.Blames ref q ∧ q.isCircularInheritance = false)
      (unfit : ∀ b, x.PointsTo roots b → ∃ y ∈ done, y.key = b ∧ ¬ Fits roots x y.toBegun) :
    Verdict roots pending done x (.refused (p :: ps))
  | circular {ref : TypeRef} {b : Key} (base : x.source.base = some ref)
      (points : x.PointsTo roots b) (isPending : b ∈ pending) :
    Verdict roots pending done x
      (.refused [.circularInheritance x.source.name.name ref.span])
  | accepted {y : Completed} (points : x.PointsTo roots y.key) (isDone : y ∈ done)
      (fits : Fits roots x y.toBegun) : Verdict roots pending done x (.accepted y.entry)

variable {x : Begun} {ref : TypeRef} {roots : String → Option Key} {pending : List Key}
  {done : List Completed}

/-- A class that points nowhere is refused, whatever is reported. -/
theorem Verdict.nowhere (hbase : x.source.base = some ref) {p : Problem}
    (hp : x.source.Blames ref p) (hcirc : p.isCircularInheritance = false)
    (hnone : ∀ b, ¬ x.PointsTo roots b) : Verdict roots pending done x (.refused [p]) := by
  apply Verdict.refused hbase
  · intro q hq
    cases List.mem_singleton.mp hq
    exact ⟨hp, hcirc⟩
  · intro b hb
    exact absurd hb (hnone b)

theorem Verdict.unfit {y : Completed} (hbase : x.source.base = some ref)
    (points : x.PointsTo roots y.key) (isDone : y ∈ done) (hfits : ¬ Fits roots x y.toBegun)
    {p : Problem} {ps : List Problem}
    (blames : ∀ q ∈ p :: ps, x.source.Blames ref q ∧ q.isCircularInheritance = false) :
    Verdict roots pending done x (.refused (p :: ps)) := by
  apply Verdict.refused hbase blames
  intro b hb
  exact ⟨y, isDone, points.unique hb, hfits⟩

variable {g : Outline} {s : Stage Declarations}

/-- The verdict on a class that points to a complete one. -/
theorem judged_of_done (K : g.Kept s) {y : Completed} (points : x.PointsTo g.roots y.key)
    (hy : y ∈ done) (hentry : g.type? y.key = some y.entry) :
    ∃ clause, x.source.baseClause s.work.symbols x.generics = .ok clause ∧
      Verdict g.roots pending done x clause := by
  obtain ⟨ref, hbase, hgeneric, hroot, hself⟩ := points
  have points : x.PointsTo g.roots y.key := ⟨ref, hbase, hgeneric, hroot, hself⟩
  have hfits : Fits g.roots x y.toBegun ↔ y.source.isSealed = false ∧
      ref.args.length = y.generics.length ∧ ∀ t ∈ TypeRef.preorderInList ref.args,
        (Generic.isAmong x.generics t.name.name || (g.roots t.name.name).isSome) = true := by
    simp only [Fits, hbase, Option.some.injEq, exists_eq_left', Bool.or_eq_true]
  have hinvalid : ∀ reason, ∀ q ∈ [Problem.invalidBase ref.name.name reason ref.span],
      x.source.Blames ref q ∧ q.isCircularInheritance = false := by
    intro reason q hq
    cases List.mem_singleton.mp hq
    exact ⟨.invalid reason, rfl⟩
  have hself' : ¬ y.key = x.source.key := hself
  have hclass : y.entry.isClass = true := rfl
  have hresolved : y.entry.progress = .resolved := rfl
  have hsealing : y.entry.isSealed = y.source.isSealed := rfl
  have hcount : y.entry.generics.length = y.generics.length := List.length_map _
  simp only [ClassDef.baseClause, K.lookupType, K.type?, hbase, hgeneric, hroot, if_neg hself',
    hentry, Bool.false_eq_true, if_false, hclass, Bool.not_true, hresolved, ne_eq, not_true,
    hsealing, hcount]
  by_cases hsealed : y.source.isSealed = true
  · rw [if_pos hsealed]
    refine ⟨_, rfl, .unfit hbase points hy (fun h => ?_) (hinvalid _)⟩
    cases hsealed.symm.trans (hfits.mp h).1
  · rw [if_neg hsealed]
    by_cases hargs : ref.args.length = y.generics.length
    · rw [if_neg (not_not.mpr hargs)]
      generalize hps : TypeRef.unknownInList _ ref.args = ps
      cases ps with
      | nil =>
        have hknown := TypeRef.unknownInList_eq_nil.mp hps
        have fits := hfits.mpr ⟨by simpa using hsealed, hargs, hknown⟩
        exact ⟨_, rfl, .accepted points hy fits⟩
      | cons p ps =>
        refine ⟨_, rfl, .unfit hbase points hy (fun h => ?_) fun q hq => ?_⟩
        · cases hps.symm.trans (TypeRef.unknownInList_eq_nil.mpr (hfits.mp h).2.2)
        · exact ClassDef.blames_of_unknown (hps ▸ hq)
    · rw [if_pos hargs]
      exact ⟨_, rfl, .unfit hbase points hy (fun h => hargs (hfits.mp h).2.1) (hinvalid _)⟩

/-- The compiler finds one of the verdicts when the class that `x` points to is begun. -/
theorem judged {opens : List Begun} (K : g.Kept s)
    (hopens : ∀ y ∈ opens, g.type? y.key = some y.entry)
    (hdone : ∀ y ∈ done, g.type? y.key = some y.entry)
    (hnext : ∀ b, x.PointsTo g.roots b → b ∈ opens.map (·.key) ∨ b ∈ done.map (·.key)) :
    ∃ clause, x.source.baseClause s.work.symbols x.generics = .ok clause ∧
      Verdict g.roots (opens.map (·.key)) done x clause := by
  by_cases hpoints : ∃ b, x.PointsTo g.roots b
  · obtain ⟨b, points⟩ := hpoints
    rcases hnext b points with hb | hb
    · obtain ⟨y, hy, rfl⟩ := List.mem_map.mp hb
      obtain ⟨ref, hbase, hgeneric, hroot, hself⟩ := id points
      have hself' : ¬ y.key = x.source.key := hself
      simp only [ClassDef.baseClause, K.lookupType, K.type?, hbase, hgeneric, Bool.false_eq_true,
        if_false, hroot, if_neg hself', hopens y hy]
      exact ⟨_, rfl, .circular hbase points hb⟩
    · obtain ⟨y, hy, rfl⟩ := List.mem_map.mp hb
      exact judged_of_done K points hy (hdone y hy)
  · rw [not_exists] at hpoints
    simp only [ClassDef.baseClause, K.lookupType, K.type?]
    cases hbase : x.source.base with
    | none => exact ⟨_, rfl, .absent hbase⟩
    | some ref =>
      dsimp only
      split
      · exact ⟨_, rfl, .nowhere hbase (.invalid _) rfl hpoints⟩
      · rename_i hgeneric
        split
        · exact ⟨_, rfl, .nowhere hbase (.unknown ref.mem_preorder) rfl hpoints⟩
        · rename_i key hroot
          split
          · exact ⟨_, rfl, .nowhere hbase (.invalid _) rfl hpoints⟩
          · rename_i hself
            exact absurd ⟨ref, hbase, by simpa using hgeneric, hroot, hself⟩ (hpoints key)

end Begun

end Stackless
