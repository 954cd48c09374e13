import Stackless.Proofs.BaseClasses
import Stackless.Proofs.DeclaredClasses

/-!
# The inventory of a declared script

The functions outside classes are declared first, then all classes, and at last the variables
outside classes. When only the calls remain to be linked, the ledger lists all that the script
declares (`Declare.script_arrives`).
-/

namespace Stackless

namespace Ledger

variable {L : Ledger} {script : Script} {classes : List ClassDef} {done : List Completed}
  {s s' : Stage Declarations} {u : Unit}

/-! ## Outside classes -/

variable {vs : List VariableDef} {items : List Item}

/-- The functions among some items, as they are called. -/
def textsOf (items : List Item) : List FunctionText :=
  (items.filterMap Item.toFunction?).map fun f => (.function f.name.name, f)

def addGlobal (L : Ledger) (f : FunctionDef) : Ledger :=
  L.addFunction .root (.ofFunctionDef f) (.function f.name.name, f) true

/-- The ledger after the functions outside classes. -/
def addGlobals (L : Ledger) (items : List Item) : Ledger :=
  (items.filterMap Item.toFunction?).foldl addGlobal L

theorem addGlobals_functionItem (L : Ledger) (f : FunctionDef) (items : List Item) :
    L.addGlobals (.functionItem f :: items) = (L.addGlobal f).addGlobals items := rfl

theorem addGlobals_done (L : Ledger) (items : List Item) : (L.addGlobals items).done = L.done := by
  rw [addGlobals]
  induction items.filterMap Item.toFunction? generalizing L with
  | nil => rfl
  | cons f rest ih => exact ih (L.addGlobal f)

theorem addGlobals_variableDefs (L : Ledger) (items : List Item) :
    (L.addGlobals items).variableDefs = L.variableDefs := by
  rw [addGlobals]
  induction items.filterMap Item.toFunction? generalizing L with
  | nil => rfl
  | cons f rest ih => exact ih (L.addGlobal f)

theorem addGlobals_functions (L : Ledger) (items : List Item) :
    (L.addGlobals items).functions = L.functions ++ textsOf items := by
  rw [addGlobals, textsOf]
  induction items.filterMap Item.toFunction? generalizing L with
  | nil => exact (List.append_nil _).symm
  | cons f rest ih =>
    refine (ih (L.addGlobal f)).trans ?_
    rw [addGlobal, addFunction, List.append_assoc, List.map_cons, List.singleton_append]

theorem addGlobals_names (L : Ledger) (items : List Item) :
    (L.addGlobals items).names .root = L.names .root ++ (textsOf items).map (·.2.name) := by
  rw [addGlobals, textsOf]
  induction items.filterMap Item.toFunction? generalizing L with
  | nil => exact (List.append_nil _).symm
  | cons f rest ih =>
    refine (ih (L.addGlobal f)).trans ?_
    have hname : (L.addGlobal f).names .root = L.names .root ++ [f.name] :=
      addName_self L.names .root f.name
    rw [hname, List.append_assoc, List.map_cons, List.map_cons, List.singleton_append]

theorem Inventory.names (I : L.Inventory script s) (hnone : L.done = [])
    (hall : script.globalFunctions = L.functions ++ textsOf items)
    (hnames : L.names .root = L.functions.map (·.2.name))
    (hclasses : items.filterMap Item.toClass? ⊆ script.classes)
    (h : Declare.names items s = .ok classes s') :
    (L.addGlobals items).Inventory script s' := by
  induction items generalizing L s classes with
  | nil =>
    cases h
    exact I
  | cons item rest ih =>
    cases item with
    | classItem c =>
      obtain ⟨hc, hrest⟩ := List.cons_subset.mp hclasses
      obtain ⟨isNew, s₁, hname, h⟩ := exists_of_bind h
      obtain ⟨more, s₂, hmore, h⟩ := exists_of_bind h
      cases h
      refine ih ?_ hnone hall hnames hrest hmore
      obtain ⟨r, s₃, hadd, hname⟩ := exists_of_bind hname
      cases r with
      | none =>
        cases hname
        exact I.addType hadd
      | some _ =>
        obtain ⟨r', s₄, hbind, hname⟩ := exists_of_bind hname
        cases hname
        exact (I.addType hadd).bindType .root (List.mem_flatMap.mpr ⟨c, hc, List.mem_cons_self⟩) hbind
    | functionItem f =>
      obtain ⟨_, s₁, hadd, h⟩ := exists_of_bind h
      have hsplit : script.globalFunctions =
          L.functions ++ [(.function f.name.name, f)] ++ textsOf rest :=
        hall.trans (List.append_cons ..)
      rw [addGlobals_functionItem]
      refine ih ?_ hnone ?_ ?_ hclasses h
      · refine I.adds (Declare.adds_of_function hadd) .root (.root rfl) ⟨rfl, rfl, rfl⟩ rfl ?_ rfl
          (fun _ => ⟨rfl, rfl⟩) ?_
        · rw [Script.functions, hsplit, List.append_assoc (_ ++ _)]
          exact (List.sublist_append_left _ _).subperm
        · intro _ x hx same
          refine .root ?_ same
          rw [hnames] at hx
          rw [Script.rootNames, hall, List.map_append, List.append_assoc]
          exact (List.singleton_sublist.mpr hx).append ((List.nil_sublist _).cons_cons f.name)
      · exact hsplit
      · have hname : (L.addGlobal f).names .root = L.names .root ++ [f.name] :=
          addName_self L.names .root f.name
        rw [hname, hnames, addGlobal, addFunction, List.map_append]
        rfl
    | variableItem v => exact ih I hnone hall hnames hclasses h

def addVariables (L : Ledger) (items : List Item) : Ledger :=
  (items.filterMap Item.toVariable?).foldl (·.addVariable .root) L

theorem addVariables_variableItem (L : Ledger) (v : VariableDef) (items : List Item) :
    L.addVariables (.variableItem v :: items) = (L.addVariable .root v).addVariables items := rfl

theorem addVariables_done (L : Ledger) (items : List Item) :
    (L.addVariables items).done = L.done := by
  rw [addVariables]
  induction items.filterMap Item.toVariable? generalizing L with
  | nil => rfl
  | cons v rest ih => exact ih (L.addVariable .root v)

theorem addVariables_functions (L : Ledger) (items : List Item) :
    (L.addVariables items).functions = L.functions := by
  rw [addVariables]
  induction items.filterMap Item.toVariable? generalizing L with
  | nil => rfl
  | cons v rest ih => exact ih (L.addVariable .root v)

theorem addVariables_bound (L : Ledger) (items : List Item) :
    (L.addVariables items).bound = L.bound := by
  rw [addVariables]
  induction items.filterMap Item.toVariable? generalizing L with
  | nil => rfl
  | cons v rest ih => exact ih (L.addVariable .root v)

theorem names_subset_addVariables (L : Ledger) (items : List Item) (id : ScopeId) :
    L.names id ⊆ (L.addVariables items).names id := by
  rw [addVariables]
  induction items.filterMap Item.toVariable? generalizing L with
  | nil => exact List.Subset.refl _
  | cons v rest ih =>
    have hfirst : L.names id ⊆ (L.addVariable .root v).names id := fun _ h => mem_addName h
    exact List.Subset.trans hfirst (ih (L.addVariable .root v))

theorem addVariables_variableDefs (L : Ledger) (items : List Item) :
    (L.addVariables items).variableDefs =
      L.variableDefs ++ items.filterMap Item.toVariable? := by
  rw [addVariables]
  induction items.filterMap Item.toVariable? generalizing L with
  | nil => exact (List.append_nil _).symm
  | cons v rest ih =>
    refine (ih (L.addVariable .root v)).trans ?_
    rw [addVariable, List.append_assoc, List.singleton_append]

theorem Inventory.globals (I : L.Inventory script s)
    (hall : script.globalVariables = vs ++ items.filterMap Item.toVariable?)
    (hnames : L.names .root = script.globalFunctions.map (·.2.name) ++ vs.map (·.name))
    (h : Declare.globals items s = .ok u s') : (L.addVariables items).Inventory script s' := by
  induction items generalizing L s vs with
  | nil =>
    cases h
    exact I
  | cons item rest ih =>
    cases item with
    | classItem c => exact ih I hall hnames h
    | functionItem f => exact ih I hall hnames h
    | variableItem v =>
      obtain ⟨_, s₁, hadd, h⟩ := exists_of_bind h
      have hsplit : script.globalVariables = vs ++ v :: rest.filterMap Item.toVariable? := hall
      rw [addVariables_variableItem]
      have hsplit' : script.globalVariables = (vs ++ [v]) ++ rest.filterMap Item.toVariable? := by
        rw [hsplit, List.append_cons]
      refine ih ?_ hsplit' ?_ h
      · refine I.addsVariable (Declare.addsVariable_of_variableDef hadd) .root ?_ ?_
        · intro expr hexpr
          refine .global ?_ hexpr rfl
          rw [hsplit]
          exact List.mem_append_right _ List.mem_cons_self
        · intro x hx same
          refine .root ?_ same
          rw [hnames] at hx
          rw [Script.rootNames, hsplit, List.map_append, List.map_cons, ← List.append_assoc]
          exact (List.singleton_sublist.mpr hx).append ((List.nil_sublist _).cons_cons v.name)
      · have hname : (L.addVariable .root v).names .root = L.names .root ++ [v.name] :=
          addName_self L.names .root v.name
        rw [hname, hnames, List.map_append, List.append_assoc]
        rfl

end Ledger

/-! ## The whole script -/

/-- The ledger of a script with the classes that were completed. -/
def Script.ledger (s : Script) (done : List Completed) : Ledger :=
  ((({} : Ledger).addGlobals s.items).addClasses done).addVariables s.items

namespace Script

variable {script : Script} {done : List Completed} {x : Completed}

theorem ledger_done (script : Script) (done : List Completed) : (script.ledger done).done = done := by
  rw [ledger, Ledger.addVariables_done, Ledger.addClasses_done, Ledger.addGlobals_done,
    List.append_nil]

theorem names_ledger (hx : x ∈ done) (isStatic : Bool) :
    x.source.names isStatic ⊆ (script.ledger done).names (x.scopes.side isStatic) :=
  List.Subset.trans (Ledger.names_addClasses hx isStatic) (Ledger.names_subset_addVariables ..)

theorem mem_bound_ledger {f : FunctionDef} (hx : x ∈ done) (hf : .method f ∈ x.source.members) :
    (x.scopes.side f.isStatic, .ofMethodDef x.source f) ∈ (script.ledger done).bound := by
  rw [ledger, Ledger.addVariables_bound]
  exact Ledger.mem_bound_addClasses hx hf

end Script

namespace Outline.Finished

variable {g : Outline} {script : Script} {classes : List ClassDef} {done cut : List Completed}

/-- The functions that were declared are functions of the script. -/
theorem ledger_functions (F : g.Finished script classes done cut) :
    (script.ledger done).functions.Subperm script.functions := by
  rw [Script.ledger, Ledger.addVariables_functions, Ledger.addClasses_functions,
    Ledger.addGlobals_functions, List.nil_append]
  refine (List.Subperm.refl _).append ?_
  exact Ledger.sources_subperm F.order.nodup (fun x hx => F.registers_of_done hx) _

theorem ledger_variableDefs (F : g.Finished script classes done cut) :
    (script.ledger done).variableDefs.Subperm script.variableDefs := by
  rw [Script.ledger, Ledger.addVariables_variableDefs, Ledger.addClasses_variableDefs,
    Ledger.addGlobals_variableDefs, List.nil_append]
  refine List.Subperm.append ?_ (.refl _)
  exact Ledger.sources_subperm F.order.nodup (fun x hx => F.registers_of_done hx) _

end Outline.Finished

namespace Declare

variable {script : Script} {o : Options} {s' : Stage Declarations} {u : Unit}

/-- The names of classes and functions are declared, then the classes are completed one by one, and
at last the variables outside classes are declared. -/
def Arrives (script : Script) (o : Options) (classes : List ClassDef) (done : List Completed)
    (s : Stage Declarations) : Prop :=
  ∃ s₁ s₂ u, names script.items { work := .ofOptions o, report := {} } = .ok classes s₁ ∧
    Advances classes s₁ [] done s₂ ∧ globals script.items s₂ = .ok u s

/-- A pass that declares a script first declares everything and then links all calls. -/
theorem script_arrives
    (h : Declare.script script { work := .ofOptions o, report := {} } = .ok u s') :
    ∃ (g : Outline) (classes : List ClassDef) (done cut : List Completed) (s : Stage Declarations),
      g.Finished script classes done cut ∧ g.Kept s ∧ g.Kept s' ∧
        (script.ledger done).Inventory script s ∧ Arrives script o classes done s ∧
        (linkBodies s.report.bodies >>= fun _ => linkInitializers s.report.initializers) s =
          .ok u s' := by
  obtain ⟨classes, s₁, hnames, h⟩ := exists_of_bind h
  obtain ⟨g₁, K₁, N₁, hoptions, hclasses⟩ :=
    (guards_names (Outline.named_start o) script.items).ensures (Outline.kept_start { options := o } _) hnames
  have hregisters : ∀ {c}, c ∈ classes ↔ script.Registers c := fun {c} =>
    (hclasses c).trans (and_iff_right List.not_mem_nil)
  obtain ⟨_, s₂, hcomplete, h⟩ := exists_of_bind h
  obtain ⟨done, ⟨g, cut, K₂, C, _⟩, A, hall, _⟩ :=
    (guards_completeAll (List.Subset.refl classes) N₁.completing).ensures ⟨K₁, .refl⟩ hcomplete
  obtain ⟨_, s₃, hglobals, h⟩ := exists_of_bind h
  have K₃ := (keeps_globals script.items).ensures K₂ hglobals
  obtain ⟨stage, s₄, hget, h⟩ := exists_of_bind h
  cases hget
  have hlinked := h
  obtain ⟨_, s₅, hbodies, h⟩ := exists_of_bind h
  have K' := (keeps_linkInitializers _).ensures ((keeps_linkBodies _).ensures K₃ hbodies) h
  refine ⟨g, classes, done, cut, s₃, ⟨C, hregisters, hall⟩, K₃, K', ?_,
    ⟨s₁, s₂, _, hnames, A, hglobals⟩, hlinked⟩
  have I₁ := (Ledger.inventory_start script o).names rfl rfl rfl (List.Subset.refl _) hnames
  have I₂ := I₁.advances (by rw [Ledger.addGlobals_done])
    (by rw [Ledger.addGlobals_functions]; rfl) (fun c hc => hregisters.mp hc) A
  refine I₂.globals (List.nil_append _).symm ?_ hglobals
  rw [Ledger.addClasses_names_of_ne, Ledger.addGlobals_names]
  · rw [List.map_nil, List.append_nil]
    rfl
  · intro x hx isStatic he
    have hdone : x ∈ ((({} : Ledger).addGlobals script.items).addClasses done).done := by
      rw [Ledger.addClasses_done]
      exact List.mem_append_left _ hx
    have hpos := I₂.housing.scopes.root_lt_static hdone
    have hle := (I₂.housing.scopes.side_le hdone isStatic).1
    rw [he] at hle
    exact Nat.not_lt_zero _ (Nat.lt_of_lt_of_le hpos hle)

end Declare

end Stackless
