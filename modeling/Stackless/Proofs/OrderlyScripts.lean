import Stackless.Proofs.DeclaredScript

/-!
# Scripts whose parts can be told apart

In an orderly script no name is declared twice at the root, no two keys collide, and no class is
above itself. So all classes, and all functions and variables outside classes, are accepted. What
the `extends` clause of a class comes to can then be read off the script (`Script.extension`), in
whatever order the classes are completed (`Script.Orderly.extension_eq`).
-/

namespace Stackless

/-! ## Names of types -/

/-- A class, or a generic parameter of a class, by its name. -/
inductive TypeName where
  | ofClass (name : String)
  | ofParameter (owner name : String)
  deriving DecidableEq

def TypeName.key : TypeName → Key
  | .ofClass name => .type name
  | .ofParameter owner name => .genericParameter (.type owner) name

namespace ClassDef

def typeNames (c : ClassDef) : List TypeName :=
  .ofClass c.name.name :: c.generics.map fun p => .ofParameter c.name.name p.name

/-- The first parameter of each name that is not in `seen`, and the others. -/
def splitParameters (seen : List String) : List Ident → List Ident × List Ident
  | [] => ([], [])
  | p :: rest =>
    if p.name ∈ seen then
      let (first, again) := splitParameters seen rest
      (first, p :: again)
    else
      let (first, again) := splitParameters (p.name :: seen) rest
      (p :: first, again)

/-- The generic parameters of a class, each name once. -/
def parameters (c : ClassDef) : List Ident := (splitParameters [] c.generics).1

/-- The parameters as they are registered. -/
def registered (c : ClassDef) : List Generic :=
  c.parameters.map fun p => ⟨p, .genericParameter c.key p.name⟩

/-- Parameters of the same name as one before, as problems. -/
def parameterProblems (c : ClassDef) : List Problem :=
  (splitParameters [] c.generics).2.map fun p => .redefined "type" p.name p.span

variable {seen : List String} {ps : List Ident}

theorem mem_splitParameters {name : String} :
    name ∈ (splitParameters seen ps).1.map (·.name) ↔ name ∈ ps.map (·.name) ∧ name ∉ seen := by
  induction ps generalizing seen with
  | nil => simp [splitParameters]
  | cons p rest ih =>
    rw [splitParameters, List.map_cons, List.mem_cons]
    split
    · rename_i hp
      rw [ih]
      refine and_congr_left fun hname => (or_iff_right fun he => ?_).symm
      exact hname (he ▸ hp)
    · rename_i hp
      rw [List.map_cons, List.mem_cons, ih, List.mem_cons, not_or]
      by_cases he : name = p.name
      · simp [he, hp]
      · simp [he]

theorem splitParameters_sublist : (splitParameters seen ps).1.Sublist ps := by
  induction ps generalizing seen with
  | nil => exact .slnil
  | cons p rest ih =>
    rw [splitParameters]
    split
    · exact ih.cons p
    · exact ih.cons_cons p

theorem nodup_splitParameters : ((splitParameters seen ps).1.map (·.name)).Nodup := by
  induction ps generalizing seen with
  | nil => exact .nil
  | cons p rest ih =>
    rw [splitParameters]
    split
    · exact ih
    · rw [List.map_cons, List.nodup_cons]
      exact ⟨fun h => (mem_splitParameters.mp h).2 List.mem_cons_self, ih⟩

variable {c : ClassDef} {name : String}

theorem mem_parameters : name ∈ c.parameters.map (·.name) ↔ name ∈ c.generics.map (·.name) := by
  rw [parameters, mem_splitParameters, and_iff_left List.not_mem_nil]

theorem isAmong_registered :
    Generic.isAmong c.registered name = true ↔ name ∈ c.parameters.map (·.name) := by
  rw [Generic.isAmong_iff, registered, List.map_map]
  rfl

theorem exists_of_mem_registered {y : Generic} (h : y ∈ c.registered) :
    ∃ p ∈ c.generics, y = ⟨p, .genericParameter c.key p.name⟩ := by
  obtain ⟨p, hp, rfl⟩ := List.mem_map.mp h
  exact ⟨p, splitParameters_sublist.mem hp, rfl⟩

theorem nodup_registered (c : ClassDef) : (c.registered.map (·.name.name)).Nodup := by
  rw [registered, List.map_map]
  exact nodup_splitParameters

end ClassDef

/-! ## Orderly scripts -/

namespace Script

def typeNames (s : Script) : List TypeName := s.classes.flatMap (·.typeNames)

/-- The class named `a` has an `extends` clause that names the other class `b`. -/
def Extends (s : Script) (a b : String) : Prop :=
  ∃ c ∈ s.classes, c.name.name = a ∧ ∃ ref, c.base = some ref ∧ ref.name.name = b ∧
    b ∉ c.generics.map (·.name) ∧ b ≠ a ∧ b ∈ s.classes.map (·.name.name)

/-- Names tell the parts of the script apart, no two keys collide, and no class is above itself. -/
structure Orderly (s : Script) : Prop where
  classNames : (s.classes.map (·.name.name)).Nodup
  rootNames : (s.rootNames.map (·.name)).Nodup
  typeKeys : ∀ t ∈ s.typeNames, ∀ t' ∈ s.typeNames, t.key = t'.key → t = t'
  functionKeys : s.FunctionsDistinct
  acyclic : ∀ a, ¬ Relation.TransGen s.Extends a a

/-- The class of a name. -/
def class? (s : Script) (name : String) : Option ClassDef :=
  s.classes.find? (·.name.name = name)

/-- What the `extends` clause of a class comes to in a script without cycles: the problems with it,
and the class that is extended. -/
def extension (s : Script) (c : ClassDef) : List Problem × Option Key :=
  match c.base with
  | none => ([], none)
  | some ref =>
    let name := ref.name.name
    let invalid (reason : String) : List Problem × Option Key :=
      ([.invalidBase name reason ref.span], none)
    if name ∈ c.parameters.map (·.name) then invalid "a generic parameter cannot be extended"
    else
      match s.class? name with
      | none => ([.unknownType name ref.span], none)
      | some base =>
        if base.key = c.key then invalid "a type cannot extend itself"
        else if base.isSealed then invalid ("'" ++ name ++ "' is sealed")
        else if ref.args.length ≠ base.parameters.length then
          invalid ("'" ++ name ++ "' expects " ++ toString base.parameters.length ++
            " generic argument(s), got " ++ toString ref.args.length)
        else
          let known (n : String) : Bool :=
            n ∈ c.parameters.map (·.name) || (s.class? n).isSome
          match TypeRef.unknownInList known ref.args with
          | [] => ([], some base.key)
          | problems => (problems, none)

end Script

/-- The entry of a class that is complete. -/
structure TypeEntry.Completes (t : TypeEntry) (c : ClassDef) : Prop where
  key : t.key = c.key
  isClass : t.isClass = true
  progress : t.progress = .resolved
  isSealed : t.isSealed = c.isSealed
  generics : t.generics.length = c.parameters.length

/-- A clause is judged as the script says if the symbols say the same about names as the script, and
the class that is named is complete. -/
theorem Script.extension_of_baseClause {s : Script} {c : ClassDef} {symbols : Symbols}
    {gs : List Generic} {clause : BaseClause}
    (hamong : ∀ name, Generic.isAmong gs name = decide (name ∈ c.parameters.map (·.name)))
    (hroot : ∀ name, symbols.scopes.lookupType .root name = (s.class? name).map (·.key))
    (hentry : ∀ ref base, c.base = some ref → ref.name.name ∉ c.parameters.map (·.name) →
      s.class? ref.name.name = some base → base.key ≠ c.key →
        ∃ t, symbols.type? base.key = some t ∧ t.Completes base)
    (h : c.baseClause symbols gs = .ok clause) :
    (clause.problems, clause.base?) = s.extension c := by
  simp only [ClassDef.baseClause, hroot, hamong, Option.isSome_map] at h
  rw [extension]
  cases hbase : c.base with
  | none =>
    rw [hbase] at h
    cases h
    rfl
  | some ref =>
    rw [hbase] at h
    dsimp only at h ⊢
    by_cases hparameter : ref.name.name ∈ c.parameters.map (·.name)
    · rw [if_pos hparameter]
      rw [if_pos (decide_eq_true hparameter)] at h
      cases h
      rfl
    rw [if_neg hparameter]
    rw [if_neg (by simpa using hparameter)] at h
    cases hclass : s.class? ref.name.name with
    | none =>
      rw [hclass] at h
      cases h
      rfl
    | some base =>
      rw [hclass] at h
      dsimp only [Option.map_some] at h ⊢
      by_cases hself : base.key = c.key
      · rw [if_pos hself] at h ⊢
        cases h
        rfl
      rw [if_neg hself] at h ⊢
      obtain ⟨t, ht, T⟩ := hentry ref base hbase hparameter hclass hself
      rw [ht] at h
      simp only [T.isClass, T.progress, T.isSealed, T.generics, Bool.not_true, Bool.false_eq_true,
        if_false, ne_eq, not_true] at h
      by_cases hsealed : base.isSealed = true
      · rw [if_pos hsealed] at h ⊢
        cases h
        rfl
      rw [if_neg hsealed] at h ⊢
      by_cases hargs : ref.args.length = base.parameters.length
      · rw [if_neg (not_not.mpr hargs)] at h ⊢
        generalize TypeRef.unknownInList _ ref.args = ps at h ⊢
        cases ps with
        | nil =>
          cases h
          exact congrArg (fun k => ([], some k)) T.key
        | cons p ps =>
          cases h
          rfl
      · rw [if_pos hargs] at h ⊢
        cases h
        rfl

namespace Script.Orderly

variable {s : Script} {c c' : ClassDef} {name : String}

theorem ofClass_mem (hc : c ∈ s.classes) : .ofClass c.name.name ∈ s.typeNames :=
  List.mem_flatMap.mpr ⟨c, hc, List.mem_cons_self⟩

theorem ofParameter_mem {p : Ident} (hc : c ∈ s.classes) (hp : p ∈ c.generics) :
    .ofParameter c.name.name p.name ∈ s.typeNames :=
  List.mem_flatMap.mpr ⟨c, hc, List.mem_cons_of_mem _ (List.mem_map.mpr ⟨p, hp, rfl⟩)⟩

theorem eq_of_name (O : s.Orderly) (hc : c ∈ s.classes) (hc' : c' ∈ s.classes)
    (h : c.name.name = c'.name.name) : c = c' :=
  List.inj_on_of_nodup_map O.classNames hc hc' h

theorem eq_of_key (O : s.Orderly) (hc : c ∈ s.classes) (hc' : c' ∈ s.classes)
    (h : c.key = c'.key) : c = c' := by
  have hname := O.typeKeys _ (ofClass_mem hc) _ (ofClass_mem hc') h
  injection hname with hname
  exact O.eq_of_name hc hc' hname

theorem nodup_keys (O : s.Orderly) : (s.classes.map (·.key)).Nodup :=
  O.classNames.of_map.map_on fun _ hc _ hc' h => O.eq_of_key hc hc' h

theorem registers (O : s.Orderly) (hc : c ∈ s.classes) : s.Registers c := by
  cases hfind : s.classes.find? (·.key = c.key) with
  | none => exact absurd (List.find?_eq_none.mp hfind c hc) (by simp)
  | some c' =>
    have hkey : c'.key = c.key := of_decide_eq_true (List.find?_some hfind :)
    cases O.eq_of_key (List.mem_of_find?_eq_some hfind) hc hkey
    exact hfind

theorem class?_eq_some (O : s.Orderly) :
    s.class? name = some c ↔ c ∈ s.classes ∧ c.name.name = name := by
  constructor
  · intro h
    exact ⟨List.mem_of_find?_eq_some h, of_decide_eq_true (List.find?_some h :)⟩
  · intro ⟨hc, hname⟩
    cases hfind : s.class? name with
    | none => exact absurd (List.find?_eq_none.mp hfind c hc) (by simpa using hname)
    | some c' =>
      have hname' : c'.name.name = name := of_decide_eq_true (List.find?_some hfind :)
      rw [O.eq_of_name (List.mem_of_find?_eq_some hfind) hc (hname'.trans hname.symm)]

/-- A parameter has the key of no class, and of no parameter of another name or class. -/
theorem parameter_key {p : Ident} (O : s.Orderly) (hc : c ∈ s.classes) (hp : p ∈ c.generics)
    {t : TypeName} (ht : t ∈ s.typeNames) (h : t.key = .genericParameter c.key p.name) :
    t = .ofParameter c.name.name p.name :=
  O.typeKeys _ ht _ (ofParameter_mem hc hp) h

/-! ### Permutations -/

variable {s' : Script}

theorem classes_perm (h : s'.items.Perm s.items) : s'.classes.Perm s.classes := h.filterMap _

theorem functions_perm (h : s'.items.Perm s.items) : s'.functions.Perm s.functions :=
  ((h.filterMap _).map _).append ((classes_perm h).flatMap_right _)

theorem rootNames_perm (h : s'.items.Perm s.items) : s'.rootNames.Perm s.rootNames :=
  (((h.filterMap _).map _).map _).append ((h.filterMap _).map _)

theorem perm (O : s.Orderly) (h : s'.items.Perm s.items) : s'.Orderly := by
  have hclasses := classes_perm h
  have htypes : s'.typeNames.Perm s.typeNames := hclasses.flatMap_right _
  have hextends : ∀ {a b}, s'.Extends a b → s.Extends a b := by
    intro a b ⟨c, hc, hname, ref, href, hb, hgeneric, hne, hmem⟩
    exact ⟨c, hclasses.mem_iff.mp hc, hname, ref, href, hb, hgeneric, hne,
      (hclasses.map _).mem_iff.mp hmem⟩
  refine ⟨(hclasses.map _).nodup_iff.mpr O.classNames,
    ((rootNames_perm h).map _).nodup_iff.mpr O.rootNames, fun t ht t' ht' => ?_,
    fun t ht t' ht' => ?_, fun a ha => ?_⟩
  · exact O.typeKeys t (htypes.mem_iff.mp ht) t' (htypes.mem_iff.mp ht')
  · exact O.functionKeys t ((functions_perm h).mem_iff.mp ht) t'
      ((functions_perm h).mem_iff.mp ht')
  · exact O.acyclic a (Relation.TransGen.mono (fun a b => hextends) a a ha)

theorem class?_perm (O : s.Orderly) (h : s'.items.Perm s.items) : s'.class? = s.class? := by
  funext name
  ext c
  rw [(O.perm h).class?_eq_some, O.class?_eq_some, (classes_perm h).mem_iff]

theorem extension_perm (O : s.Orderly) (h : s'.items.Perm s.items) :
    s'.extension = s.extension := by
  funext c
  simp only [extension, O.class?_perm h]

/-! ### The clauses of classes -/

variable {g : Outline} {classes : List ClassDef} {opens : List Begun} {done cut : List Completed}

/-- A class that points to another extends it, as far as the script says. -/
theorem exists_extends (O : s.Orderly) {xs : List Begun} (hsources : ∀ x ∈ xs, x.source ∈ s.classes)
    (hgenerics : ∀ x ∈ xs, x.generics = x.source.registered)
    (hroots : ∀ {name k}, g.roots name = some k →
      ∃ c ∈ s.classes, c.name.name = name ∧ c.key = k)
    {b : Key} (hc : c ∈ s.classes) (h : Begun.Follows g.roots xs c.key b) :
    ∃ d ∈ s.classes, d.key = b ∧ s.Extends c.name.name d.name.name := by
  obtain ⟨x, hx, hkey, ref, href, hgeneric, hroot, hself⟩ := h
  obtain rfl := O.eq_of_key (hsources x hx) hc hkey
  obtain ⟨d, hd, hname, rfl⟩ := hroots hroot
  refine ⟨d, hd, rfl, x.source, hc, rfl, ref, href, hname.symm, ?_, ?_, List.mem_map_of_mem hd⟩
  · rw [← ClassDef.mem_parameters, ← ClassDef.isAmong_registered, ← hgenerics x hx, hname, hgeneric]
    exact Bool.false_ne_true
  · intro he
    exact hself (congrArg ClassDef.key (O.eq_of_name hd hc he))

/-- No open class is on a cycle, so what the newest one points to is done. -/
theorem mem_done_of_pointsTo (O : s.Orderly) {x : Begun}
    (C : g.Completing classes (x :: opens) done cut) (hclasses : classes ⊆ s.classes)
    (hgenerics : ∀ y ∈ begun (x :: opens) done, y.generics = y.source.registered)
    (hroots : ∀ {name k}, g.roots name = some k →
      ∃ c ∈ s.classes, c.name.name = name ∧ c.key = k)
    {b : Key} (hpoints : x.PointsTo g.roots b)
    (hnext : b ∈ opens.map (·.key) ∨ b ∈ done.map (·.key)) : b ∈ done.map (·.key) := by
  refine hnext.resolve_left fun hopen => ?_
  obtain ⟨cycle, hchain, hlast, _⟩ := C.exists_cycle hpoints hopen
  have hsources : ∀ y ∈ begun (x :: opens) done, y.source ∈ s.classes :=
    fun y hy => hclasses (C.sources y hy)
  have hx := hsources x List.mem_cons_self
  have hreach : ∀ {k}, Relation.TransGen
      (Begun.Follows g.roots (begun (x :: opens) done)) x.source.key k →
        ∃ d ∈ s.classes, d.key = k ∧ Relation.TransGen s.Extends x.source.name.name d.name.name := by
    intro k hk
    induction hk with
    | single h =>
      obtain ⟨d, hd, hkey, hextends⟩ := O.exists_extends hsources hgenerics hroots hx h
      exact ⟨d, hd, hkey, .single hextends⟩
    | tail _ h ih =>
      obtain ⟨d, hd, rfl, hextends⟩ := ih
      obtain ⟨d', hd', hkey, hextends'⟩ := O.exists_extends hsources hgenerics hroots hd h
      exact ⟨d', hd', hkey, hextends.tail hextends'⟩
  obtain ⟨d, hd, hkey, hcycle⟩ := hreach (transGen_of_isChain hchain hlast)
  cases O.eq_of_key hd hx hkey
  exact O.acyclic _ hcycle

/-- The entry of a class that is done says what the script says. -/
theorem exists_entry (O : s.Orderly) {x : Begun} {stage : Stage Declarations} (K : g.Kept stage)
    (C : g.Completing classes (x :: opens) done cut) (hclasses : classes ⊆ s.classes)
    (hgenerics : ∀ y ∈ begun (x :: opens) done, y.generics = y.source.registered)
    (hc : c ∈ s.classes) (hdone : c.key ∈ done.map (·.key)) :
    ∃ t, stage.work.symbols.type? c.key = some t ∧ t.Completes c := by
  obtain ⟨y, hy, hkey⟩ := List.mem_map.mp hdone
  have hbegun : y.toBegun ∈ begun (x :: opens) done :=
    List.mem_append_right _ (List.mem_map_of_mem hy)
  obtain rfl : y.source = c := O.eq_of_key (hclasses (C.sources _ hbegun)) hc hkey
  refine ⟨y.entry, (K.type? _).trans (C.closed y hy), rfl, rfl, rfl, rfl, ?_⟩
  change (y.generics.map (·.key)).length = _
  rw [hgenerics _ hbegun, ClassDef.registered, List.length_map, List.length_map]

/-- The clause of a class is judged as the script says, whatever was completed before. -/
theorem extension_eq (O : s.Orderly) {x : Begun} {stage : Stage Declarations} (K : g.Kept stage)
    (C : g.Completing classes (x :: opens) done cut) (hclasses : classes ⊆ s.classes)
    (hgenerics : ∀ y ∈ begun (x :: opens) done, y.generics = y.source.registered)
    (hroots : ∀ {name k}, g.roots name = some k ↔
      ∃ c ∈ s.classes, c.name.name = name ∧ c.key = k)
    (hnext : ∀ b, x.PointsTo g.roots b → b ∈ opens.map (·.key) ∨ b ∈ done.map (·.key))
    {clause : BaseClause}
    (h : x.source.baseClause stage.work.symbols x.generics = .ok clause) :
    (clause.problems, clause.base?) = s.extension x.source := by
  have hroot : ∀ name, g.roots name = (s.class? name).map (·.key) := by
    intro name
    ext k
    rw [hroots, Option.map_eq_some_iff]
    simp only [O.class?_eq_some, and_assoc]
  have hamong : ∀ name, Generic.isAmong x.generics name =
      decide (name ∈ x.source.parameters.map (·.name)) := by
    intro name
    rw [hgenerics x List.mem_cons_self, Bool.eq_iff_iff, ClassDef.isAmong_registered,
      decide_eq_true_iff]
  refine extension_of_baseClause hamong (fun name => (K.lookupType name).trans (hroot name))
    (fun ref base hbase hparameter hclass hself => ?_) h
  -- the class that is pointed to is done
  have hpoints : x.PointsTo g.roots base.key := by
    refine ⟨ref, hbase, ?_, ?_, hself⟩
    · rw [hamong]
      exact decide_eq_false hparameter
    · rw [hroot, hclass]
      rfl
  have hdone := O.mem_done_of_pointsTo C hclasses hgenerics (fun hname => hroots.mp hname) hpoints
    (hnext _ hpoints)
  exact O.exists_entry K C hclasses hgenerics (O.class?_eq_some.mp hclass).1 hdone

end Script.Orderly

end Stackless
