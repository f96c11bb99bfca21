import Mathlib.Data.Finset.Basic
import Mathlib.Data.Finset.Image
import Mcpi.Lib.OrderedMap

/-!
# Deferred tools

`splitDeferredTools`: which tool schemas a request sends up front, and which the transcript loads. A
call before any load point promotes a deferred tool; from then on no marker defers it.
-/

namespace Mcpi.Ai.DeferredTools

-- the schema of a tool, which is not looked into
variable {δ : Type}

/-! ## Contexts -/

structure Tool (δ : Type) where
  name : String
  definition : δ
  deferred : Option Bool
  deriving DecidableEq

inductive Block where
  | toolCall (name : String)
  | other
  deriving DecidableEq

inductive Message where
  | user
  | assistant (content : List Block)
  | toolResult (addedToolNames : Option (List String))
  deriving DecidableEq

structure Context (δ : Type) where
  tools : Option (List (Tool δ))
  messages : List Message

structure SplitDeferredToolsOptions where
  enabled : Bool
  registrationDeferral : Option Bool
  providesToolSearch : Option Bool
  normalizeName : Option (String → String)

structure DeferredToolPlacement (δ : Type) where
  immediate : List (Tool δ)
  deferred : List (String × Tool δ)
  unsupported : List String
  deriving DecidableEq

namespace SplitDeferredToolsOptions

def normalize (options : SplitDeferredToolsOptions) : String → String :=
  options.normalizeName.getD id

def honorRegistration (options : SplitDeferredToolsOptions) : Bool :=
  options.registrationDeferral ≠ some false

end SplitDeferredToolsOptions

def uniqueTools (context : Context δ) (options : SplitDeferredToolsOptions) : OrderedMap String (Tool δ) :=
  .ofValues (fun tool => options.normalize tool.name) (context.tools.getD [])

def listRegistrationDeferred (tools : OrderedMap String (Tool δ)) : Finset String :=
  ((tools.toList.filter fun (_, tool) => tool.deferred = some true).map Prod.fst).toFinset

/-! ## The transcript -/

/-- What a transcript says of a normalized name. -/
inductive Event where
  | call (name : String)
  | load (name : String)
  deriving DecidableEq

def Block.event? (normalize : String → String) : Block → Option Event
  | toolCall name => some (.call (normalize name))
  | other => none

def Message.events (normalize : String → String) : Message → List Event
  | user => []
  | assistant content => content.filterMap (Block.event? normalize)
  | toolResult addedToolNames => (addedToolNames.getD []).map fun name => .load (normalize name)

/-- The sets that the loop over the messages keeps. -/
structure Names where
  deferredNames : Finset String
  loadedNames : Finset String
  usedNames : Finset String

def Names.next (names : Names) : Event → Names
  | .call name =>
    { names with
      usedNames := insert name names.usedNames
      deferredNames :=
        if name ∈ names.loadedNames then names.deferredNames
        else names.deferredNames.erase name }
  | .load name =>
    if name ∈ names.usedNames then names
    else
      { names with
        deferredNames := insert name names.deferredNames
        loadedNames := insert name names.loadedNames }

def scan (registrationDeferred : Finset String) (normalize : String → String) (messages : List Message) : Names :=
  (messages.flatMap (Message.events normalize)).foldl Names.next ⟨registrationDeferred, ∅, ∅⟩

/-! ## The split -/

/-- The names whose schemas are withheld, if any are. -/
def deferredNames (context : Context δ) (options : SplitDeferredToolsOptions) : Finset String :=
  let tools := uniqueTools context options
  let registrationDeferred := listRegistrationDeferred tools
  let names := (scan registrationDeferred options.normalize context.messages).deferredNames.filter
    fun name => tools.has name
  if options.honorRegistration then names else names \ registrationDeferred

def unanchored (context : Context δ) (options : SplitDeferredToolsOptions) : Finset String :=
  if options.honorRegistration then ∅ else listRegistrationDeferred (uniqueTools context options)

/-- Where the loop over the tools pushes a tool. -/
inductive Destination where
  | immediate
  | promoted
  | deferred
  deriving DecidableEq

def destination (context : Context δ) (options : SplitDeferredToolsOptions) (name : String) :
    Destination :=
  if name ∈ deferredNames context options then .deferred
  else if options.honorRegistration ∧ name ∈ listRegistrationDeferred (uniqueTools context options) then .promoted
  else .immediate

/-- What the loop pushes to one of its lists. -/
def pushed (context : Context δ) (options : SplitDeferredToolsOptions) (list : Destination) : List (String × Tool δ) :=
  (uniqueTools context options).toList.filter fun (name, _) =>
    destination context options name = list

/-- The up-front tools: those in registration order, then the promoted ones. -/
def upFront (context : Context δ) (options : SplitDeferredToolsOptions) : List (String × Tool δ) :=
  pushed context options .immediate ++ pushed context options .promoted

def orderNames (context : Context δ) (options : SplitDeferredToolsOptions) (names : Finset String) : List String :=
  (uniqueTools context options).keys.filter fun name => name ∈ names

/-- Never leave a request without an up-front tool, unless there is a discovery tool. -/
def SafetyFloor (context : Context δ) (options : SplitDeferredToolsOptions) : Prop :=
  options.providesToolSearch ≠ some true ∧ upFront context options = [] ∧ pushed context options .deferred ≠ []

instance (context : Context δ) (options : SplitDeferredToolsOptions) : Decidable (SafetyFloor context options) :=
  decidable_of_iff (options.providesToolSearch ≠ some true ∧ (upFront context options).isEmpty = true ∧
      ¬ (pushed context options .deferred).isEmpty = true) (by
    rw [SafetyFloor, List.isEmpty_iff, List.isEmpty_iff])

def splitDeferredTools (context : Context δ) (options : SplitDeferredToolsOptions) : DeferredToolPlacement δ :=
  let all := (uniqueTools context options).values
  let unanchored := unanchored context options
  if ¬ options.enabled then
    ⟨all, [], orderNames context options (deferredNames context options ∪ unanchored)⟩
  else
    let deferred := pushed context options .deferred
    if SafetyFloor context options then
      ⟨all, [], orderNames context options (unanchored ∪ (deferred.map Prod.fst).toFinset)⟩
    else
      ⟨(upFront context options).map Prod.snd, deferred, orderNames context options unanchored⟩

/-! ## The scan -/

/-- A name that was called before any load point is deferred no more. -/
def Names.Settled (names : Names) (name : String) : Prop :=
  name ∈ names.usedNames ∧ name ∉ names.deferredNames

variable {names : Names}

section

variable {name : String}

theorem Names.Settled.next (h : names.Settled name) (e : Event) : (names.next e).Settled name := by
  obtain ⟨hused, hdeferred⟩ := h
  cases e with
  | call called =>
    refine ⟨Finset.mem_insert_of_mem hused, ?_⟩
    show name ∉ if called ∈ names.loadedNames then _ else _
    split
    · exact hdeferred
    · exact fun hmem => hdeferred (Finset.mem_of_mem_erase hmem)
  | load loaded =>
    rw [Names.next]
    split
    · exact ⟨hused, hdeferred⟩
    next hnot =>
      refine ⟨hused, fun hmem => ?_⟩
      rcases Finset.mem_insert.mp hmem with rfl | hmem
      · exact hnot hused
      · exact hdeferred hmem

theorem Names.Settled.foldl (h : names.Settled name)
    (events : List Event) : (events.foldl Names.next names).Settled name := by
  induction events generalizing names with
  | nil => exact h
  | cons e events ih => exact ih (h.next e)

theorem not_mem_loadedNames (hnot : name ∉ names.loadedNames)
    {events : List Event} (h : .load name ∉ events) :
    name ∉ (events.foldl Names.next names).loadedNames := by
  induction events generalizing names with
  | nil => exact hnot
  | cons e events ih =>
    rw [List.mem_cons, not_or] at h
    refine ih ?_ h.2
    cases e with
    | call called => exact hnot
    | load loaded =>
      rw [Names.next]
      split
      · exact hnot
      · rw [Finset.mem_insert, not_or]
        exact ⟨fun heq => h.1 (heq ▸ rfl), hnot⟩

theorem Names.next_call (h : name ∉ names.loadedNames) : (names.next (.call name)).Settled name := by
  refine ⟨Finset.mem_insert_self _ _, ?_⟩
  show name ∉ if name ∈ names.loadedNames then _ else _
  rw [if_neg h]
  exact Finset.notMem_erase _ _

theorem Names.next_call_of_not_mem (h : name ∉ names.deferredNames) :
    (names.next (.call name)).Settled name := by
  refine ⟨Finset.mem_insert_self _ _, ?_⟩
  show name ∉ if name ∈ names.loadedNames then _ else _
  split
  · exact h
  · exact Finset.notMem_erase _ _

theorem not_mem_deferredNames_next (h : name ∉ names.deferredNames)
    (called : String) : name ∉ (names.next (.call called)).deferredNames := by
  show name ∉ if called ∈ names.loadedNames then _ else _
  split
  · exact h
  · exact fun hmem => h (Finset.mem_of_mem_erase hmem)

theorem mem_usedNames {events : List Event} (h : name ∈ names.usedNames ∨ .call name ∈ events) :
    name ∈ (events.foldl Names.next names).usedNames := by
  induction events generalizing names with
  | nil => exact h.resolve_right List.not_mem_nil
  | cons e events ih =>
    refine ih ?_
    cases e with
    | call called =>
      rcases h with hused | hmem
      · exact .inl (Finset.mem_insert_of_mem hused)
      · rcases List.mem_cons.mp hmem with heq | hmem
        · obtain rfl := Event.call.inj heq
          exact .inl (Finset.mem_insert_self _ _)
        · exact .inr hmem
    | load loaded =>
      rcases h with hused | hmem
      · refine .inl ?_
        rw [Names.next]
        split
        · exact hused
        · exact hused
      · exact .inr ((List.mem_cons.mp hmem).resolve_left nofun)

/-- The calls of a message settle the names that are not deferred when it begins. -/
theorem settled_of_calls (h : name ∉ names.deferredNames)
    {events : List Event} (hcalls : ∀ e ∈ events, ∃ called, e = .call called)
    (hmem : .call name ∈ events) : (events.foldl Names.next names).Settled name := by
  induction events generalizing names with
  | nil => cases hmem
  | cons e events ih =>
    rw [List.forall_mem_cons] at hcalls
    obtain ⟨⟨called, rfl⟩, hcalls⟩ := hcalls
    rcases List.mem_cons.mp hmem with heq | hmem
    · obtain rfl := Event.call.inj heq
      exact (Names.next_call_of_not_mem h).foldl events
    · exact ih (not_mem_deferredNames_next h called) hcalls hmem

end

/-! ## The names that are deferred -/

section

variable {context : Context δ} {options : SplitDeferredToolsOptions} {name : String}

def Context.events (context : Context δ) (options : SplitDeferredToolsOptions) : List Event :=
  context.messages.flatMap (Message.events options.normalize)

theorem mem_deferredNames : name ∈ deferredNames context options ↔
    (name ∈ (scan (listRegistrationDeferred (uniqueTools context options)) options.normalize
        context.messages).deferredNames ∧ (uniqueTools context options).has name = true) ∧
      (options.honorRegistration = true ∨ name ∉ listRegistrationDeferred (uniqueTools context options)) := by
  unfold deferredNames
  split
  next hhonor => rw [Finset.mem_filter, or_iff_left_of_imp fun _ => hhonor, and_iff_left hhonor]
  next hhonor => rw [Finset.mem_sdiff, Finset.mem_filter, or_iff_right hhonor]

/-- **A name whose first call precedes every marker is not deferred.** -/
theorem not_mem_deferredNames_of_call {pre post : List Event}
    (hevents : context.events options = pre ++ .call name :: post) (hload : .load name ∉ pre) :
    name ∉ deferredNames context options := by
  intro hmem
  obtain ⟨⟨hmem, -⟩, -⟩ := mem_deferredNames.mp hmem
  rw [scan, show context.messages.flatMap _ = _ from hevents, List.foldl_append, List.foldl_cons] at hmem
  have hloaded : name ∉ (pre.foldl Names.next
      ⟨listRegistrationDeferred (uniqueTools context options), ∅, ∅⟩).loadedNames :=
    not_mem_loadedNames (Finset.notMem_empty _) hload
  exact ((Names.next_call hloaded).foldl post).2 hmem

end

section

variable {tools : Option (List (Tool δ))} {options : SplitDeferredToolsOptions} {name : String}

/-- **A name that was called while it was not deferred stays so**, whatever is appended. -/
theorem not_mem_deferredNames_append {pre post : List Message} (h : name ∉ deferredNames ⟨tools, pre⟩ options)
    (hcall : .call name ∈ Context.events ⟨tools, pre⟩ options) :
    name ∉ deferredNames ⟨tools, pre ++ post⟩ options := by
  intro hmem
  obtain ⟨⟨hscan, hhas⟩, hregistered⟩ := mem_deferredNames.mp hmem
  apply h
  refine mem_deferredNames.mpr ⟨⟨?_, hhas⟩, hregistered⟩
  by_contra hnot
  rw [scan, List.flatMap_append, List.foldl_append] at hscan
  have hsettled : (scan (listRegistrationDeferred (uniqueTools ⟨tools, pre⟩ options))
      options.normalize pre).Settled name := ⟨mem_usedNames (.inr hcall), hnot⟩
  exact (hsettled.foldl _).2 hscan

/-- **A name that is called when it is not deferred is never deferred again.** -/
theorem not_mem_deferredNames_call {pre post : List Message} {content : List Block}
    (h : name ∉ deferredNames ⟨tools, pre⟩ options)
    (hcall : .call name ∈ (Message.assistant content).events options.normalize) :
    name ∉ deferredNames ⟨tools, pre ++ .assistant content :: post⟩ options := by
  intro hmem
  obtain ⟨⟨hscan, hhas⟩, hregistered⟩ := mem_deferredNames.mp hmem
  apply h
  refine mem_deferredNames.mpr ⟨⟨?_, hhas⟩, hregistered⟩
  by_contra hnot
  rw [scan, List.flatMap_append, List.foldl_append, List.flatMap_cons, List.foldl_append] at hscan
  refine ((settled_of_calls hnot (fun e he => ?_) hcall).foldl _).2 hscan
  obtain ⟨block, -, hblock⟩ := List.mem_filterMap.mp he
  cases block with
  | toolCall called => exact ⟨_, (Option.some.inj hblock).symm⟩
  | other => cases hblock

end

/-! ## Placements -/

section

variable {context : Context δ} {options : SplitDeferredToolsOptions}

theorem name_of_mem {name : String} {tool : Tool δ} (h : (name, tool) ∈ (uniqueTools context options).toList) :
    options.normalize tool.name = name := by
  rw [← OrderedMap.get?_eq_some_iff, uniqueTools, OrderedMap.get?_ofValues] at h
  exact of_decide_eq_true (List.mem_filter.mp (List.mem_of_getLast? h)).2

theorem map_name {l : List (String × Tool δ)} (h : ∀ p ∈ l, p ∈ (uniqueTools context options).toList) :
    (l.map Prod.snd).map (fun tool => (options.normalize tool.name, tool)) = l := by
  rw [List.map_map]
  refine (List.map_congr_left fun p hp => ?_).trans (List.map_id l)
  obtain ⟨name, tool⟩ := p
  show (options.normalize tool.name, tool) = (name, tool)
  rw [name_of_mem (h _ hp)]

variable {p : String × Tool δ}

theorem mem_pushed {list : Destination} (h : p ∈ pushed context options list) :
    p ∈ (uniqueTools context options).toList ∧ destination context options p.1 = list :=
  ⟨(List.mem_filter.mp h).1, of_decide_eq_true (List.mem_filter.mp h).2⟩

theorem mem_upFront (h : p ∈ upFront context options) :
    p ∈ (uniqueTools context options).toList ∧ p.1 ∉ deferredNames context options := by
  have hkept : p ∈ (uniqueTools context options).toList ∧ destination context options p.1 ≠ .deferred := by
    rcases List.mem_append.mp h with h | h
    · exact ⟨(mem_pushed h).1, fun heq => nomatch (mem_pushed h).2.symm.trans heq⟩
    · exact ⟨(mem_pushed h).1, fun heq => nomatch (mem_pushed h).2.symm.trans heq⟩
  exact ⟨hkept.1, fun hmem => hkept.2 (if_pos hmem)⟩

theorem mem_deferredNames_of_pushed
    (h : p ∈ pushed context options .deferred) : p.1 ∈ deferredNames context options := by
  have hdestination := (mem_pushed h).2
  unfold destination at hdestination
  split at hdestination
  next hmem => exact hmem
  next =>
    split at hdestination
    · cases hdestination
    · cases hdestination

theorem filter_perm {α : Type} (f : α → Destination) (l : List α) :
    (l.filter (fun a => f a = .immediate) ++ l.filter (fun a => f a = .promoted) ++
      l.filter (fun a => f a = .deferred)).Perm l := by
  induction l with
  | nil => exact .nil
  | cons a l ih =>
    cases h : f a with
    | immediate => simpa [h] using ih
    | promoted =>
      simp only [h, List.filter_cons, reduceCtorEq, decide_false, decide_true, if_true, Bool.false_eq_true, if_false]
      rw [List.append_assoc, List.cons_append]
      refine List.perm_middle.trans (.cons a ?_)
      rwa [← List.append_assoc]
    | deferred =>
      simp only [h, List.filter_cons, reduceCtorEq, decide_false, decide_true, if_true, Bool.false_eq_true, if_false]
      exact List.perm_middle.trans (.cons a ih)

/-- The lists of the loop share the tools among them. -/
theorem pushed_perm :
    (upFront context options ++ pushed context options .deferred).Perm
      (uniqueTools context options).toList := filter_perm _ _

theorem mem_listRegistrationDeferred {name : String} {tool : Tool δ}
    (h : (name, tool) ∈ (uniqueTools context options).toList) :
    name ∈ listRegistrationDeferred (uniqueTools context options) ↔ tool.deferred = some true := by
  rw [listRegistrationDeferred, List.mem_toFinset, List.mem_map]
  constructor
  · rintro ⟨⟨name', tool'⟩, hmem, rfl⟩
    obtain ⟨hmem, hdeferred⟩ := List.mem_filter.mp hmem
    have heq := (OrderedMap.get?_eq_some_iff.mpr h).symm.trans (OrderedMap.get?_eq_some_iff.mpr hmem)
    obtain rfl := Option.some.inj heq
    exact of_decide_eq_true hdeferred
  · intro hdeferred
    exact ⟨(name, tool), List.mem_filter.mpr ⟨h, decide_eq_true hdeferred⟩, rfl⟩

end

/-- Those registered as immediate come first, in registration order, then the promoted ones. -/
def PromotedLast (registered : List (Tool δ)) (placement : DeferredToolPlacement δ) : Prop :=
  ∃ immediate promoted, placement.immediate = immediate ++ promoted ∧
    immediate.Sublist registered ∧ promoted.Sublist registered ∧
    (∀ tool ∈ immediate, tool.deferred ≠ some true) ∧ ∀ tool ∈ promoted, tool.deferred = some true

/-- Promotion is what happens to tools that could be withheld. -/
def Promotes (context : Context δ) (options : SplitDeferredToolsOptions) : Prop :=
  options.enabled = true ∧ options.registrationDeferral ≠ some false ∧ ¬ SafetyFloor context options

/-- A tool is up front under a name. -/
def DeferredToolPlacement.IsImmediate (placement : DeferredToolPlacement δ)
    (options : SplitDeferredToolsOptions) (name : String) : Prop :=
  ∃ tool ∈ placement.immediate, options.normalize tool.name = name

/-- A tool is withheld under a name. -/
def DeferredToolPlacement.IsDeferred (placement : DeferredToolPlacement δ) (name : String) : Prop :=
  name ∈ placement.deferred.map Prod.fst

/-- What is asked of how tools are split. -/
structure Split (tools : Option (List (Tool δ))) (messages : List Message)
    (options : SplitDeferredToolsOptions) (placement : DeferredToolPlacement δ) : Prop where
  partition : (placement.immediate.map (fun tool => (options.normalize tool.name, tool)) ++
    placement.deferred).Perm (uniqueTools ⟨tools, messages⟩ options).toList
  last : ∀ name, (uniqueTools ⟨tools, messages⟩ options).get? name =
    ((tools.getD []).filter fun tool => options.normalize tool.name = name).getLast?
  called : ∀ pre name post, Context.events ⟨tools, messages⟩ options = pre ++ .call name :: post →
    .load name ∉ pre → ¬ placement.IsDeferred name
  sticky : ∀ appended name, options.enabled = true → upFront ⟨tools, messages⟩ options ≠ [] →
    upFront ⟨tools, messages ++ appended⟩ options ≠ [] →
    .call name ∈ Context.events ⟨tools, messages⟩ options → placement.IsImmediate options name →
    ¬ (splitDeferredTools ⟨tools, messages ++ appended⟩ options).IsDeferred name
  stickyCall : ∀ content appended name, options.enabled = true → upFront ⟨tools, messages⟩ options ≠ [] →
    upFront ⟨tools, messages ++ .assistant content :: appended⟩ options ≠ [] →
    .call name ∈ (Message.assistant content).events options.normalize →
    placement.IsImmediate options name →
    ¬ (splitDeferredTools ⟨tools, messages ++ .assistant content :: appended⟩ options).IsDeferred
      name

section

variable {tools : Option (List (Tool δ))} {messages : List Message}
  {options : SplitDeferredToolsOptions} {name : String}

theorem not_isDeferred (h : name ∉ deferredNames ⟨tools, messages⟩ options) :
    ¬ (splitDeferredTools ⟨tools, messages⟩ options).IsDeferred name := by
  intro hdeferred
  unfold splitDeferredTools at hdeferred
  split at hdeferred
  · cases hdeferred
  split at hdeferred
  · cases hdeferred
  · obtain ⟨p, hp, rfl⟩ := List.mem_map.mp hdeferred
    exact h (mem_deferredNames_of_pushed hp)

theorem not_mem_of_isImmediate (henabled : options.enabled = true) (hupFront : upFront ⟨tools, messages⟩ options ≠ [])
    (h : (splitDeferredTools ⟨tools, messages⟩ options).IsImmediate options name) :
    name ∉ deferredNames ⟨tools, messages⟩ options := by
  obtain ⟨tool, htool, rfl⟩ := h
  unfold splitDeferredTools at htool
  rw [henabled, if_neg (by decide), if_neg fun hfloor => hupFront hfloor.2.1] at htool
  obtain ⟨p, hp, rfl⟩ := List.mem_map.mp htool
  obtain ⟨hmem, hnot⟩ := mem_upFront hp
  rwa [name_of_mem hmem]

/-- The promoted tools come last, or all the tools are in registration order. -/
theorem immediate_order (context : Context δ) (options : SplitDeferredToolsOptions) :
    (Promotes context options →
      PromotedLast (uniqueTools context options).values (splitDeferredTools context options)) ∧
    (¬ Promotes context options → (splitDeferredTools context options).immediate.Sublist
        (uniqueTools context options).values) := by
  have hsub : ∀ list, ((pushed context options list).map Prod.snd).Sublist (uniqueTools context options).values :=
    fun list => (List.filter_sublist).map Prod.snd
  unfold splitDeferredTools
  constructor
  · rintro ⟨henabled, hregistration, hfloor⟩
    have hhonor : options.honorRegistration = true := decide_eq_true hregistration
    rw [henabled, if_neg (by decide), if_neg hfloor]
    refine ⟨_, _, List.map_append, hsub _, hsub _, fun tool htool => ?_, fun tool htool => ?_⟩
    · obtain ⟨⟨name, tool⟩, hp, rfl⟩ := List.mem_map.mp htool
      obtain ⟨hmem, hdestination⟩ := mem_pushed hp
      intro hdeferred
      have hpromoted : destination context options name ≠ .immediate := by
        rw [destination]
        split
        · exact nofun
        · rw [if_pos ⟨hhonor, (mem_listRegistrationDeferred hmem).mpr hdeferred⟩]
          exact nofun
      exact hpromoted hdestination
    · obtain ⟨⟨name, tool⟩, hp, rfl⟩ := List.mem_map.mp htool
      obtain ⟨hmem, hdestination⟩ := mem_pushed hp
      rw [← mem_listRegistrationDeferred hmem]
      by_contra hnot
      rw [destination] at hdestination
      split at hdestination
      · cases hdestination
      · rw [if_neg fun h => hnot h.2] at hdestination
        cases hdestination
  · intro hnot
    split
    · exact .refl _
    next henabled =>
      split
      · exact .refl _
      next hfloor =>
        -- Without registration deferral nothing is promoted.
        have hhonor : options.registrationDeferral = some false := by
          by_contra hregistration
          exact hnot ⟨by simpa using henabled, hregistration, hfloor⟩
        have hnone : pushed context options .promoted = [] := by
          rw [pushed, List.filter_eq_nil_iff]
          rintro ⟨name, tool⟩ -
          simp [destination, SplitDeferredToolsOptions.honorRegistration, hhonor]
          split <;> simp
        rw [upFront, hnone, List.append_nil]
        exact hsub _

theorem perm_placement (context : Context δ) (options : SplitDeferredToolsOptions) :
    ((splitDeferredTools context options).immediate.map (fun tool => (options.normalize tool.name, tool)) ++
      (splitDeferredTools context options).deferred).Perm (uniqueTools context options).toList := by
  have hall : ((uniqueTools context options).values.map
      fun tool => (options.normalize tool.name, tool)) = (uniqueTools context options).toList :=
    map_name fun _ h => h
  unfold splitDeferredTools
  split
  · rw [hall, List.append_nil]
  split
  · rw [hall, List.append_nil]
  · rw [map_name fun p hp => (mem_upFront hp).1]
    exact pushed_perm

end

/-- **Deferred tools keep histories valid**: the tools are shared out, what was called before any
load point is not deferred, nor ever again; promoted tools come last. -/
theorem splitDeferredTools_split (tools : Option (List (Tool δ))) (messages : List Message)
    (options : SplitDeferredToolsOptions) :
    Split tools messages options (splitDeferredTools ⟨tools, messages⟩ options) ∧
      (Promotes ⟨tools, messages⟩ options → PromotedLast (uniqueTools ⟨tools, messages⟩ options).values
          (splitDeferredTools ⟨tools, messages⟩ options)) ∧
      (¬ Promotes ⟨tools, messages⟩ options → (splitDeferredTools ⟨tools, messages⟩ options).immediate.Sublist
          (uniqueTools ⟨tools, messages⟩ options).values) := by
  refine ⟨⟨perm_placement _ _, fun name => OrderedMap.get?_ofValues .., ?_, ?_, ?_⟩, immediate_order _ _⟩
  · intro pre name post hevents hload
    exact not_isDeferred (not_mem_deferredNames_of_call hevents hload)
  · intro appended name henabled hupFront _ hcall himmediate
    exact not_isDeferred (not_mem_deferredNames_append (not_mem_of_isImmediate henabled hupFront himmediate) hcall)
  · intro content appended name henabled hupFront _ hcall himmediate
    exact not_isDeferred (not_mem_deferredNames_call (not_mem_of_isImmediate henabled hupFront himmediate) hcall)

/-- A deferred tool that was called, before a tool that is not deferred. -/
def calledContext : Context Unit :=
  { tools := some [⟨"search", (), some true⟩, ⟨"read", (), none⟩]
    messages := [.assistant [.toolCall "search"]] }

/-- A model that cannot withhold a schema. -/
def disabledOptions : SplitDeferredToolsOptions := ⟨false, none, none, none⟩

theorem splitDeferredTools_disabled :
    ¬ PromotedLast (uniqueTools calledContext disabledOptions).values
      (splitDeferredTools calledContext disabledOptions) := by
  rintro ⟨immediate, promoted, happend, -, -, himmediate, hpromoted⟩
  have hall : (splitDeferredTools calledContext disabledOptions).immediate =
      [⟨"search", (), some true⟩, ⟨"read", (), none⟩] := by decide
  rw [hall] at happend
  cases immediate with
  | nil =>
    rw [List.nil_append] at happend
    exact absurd (hpromoted ⟨"read", (), none⟩ (happend ▸ by simp)) nofun
  | cons tool immediate =>
    obtain ⟨rfl, -⟩ := List.cons.inj happend
    exact himmediate _ List.mem_cons_self rfl

end Mcpi.Ai.DeferredTools
