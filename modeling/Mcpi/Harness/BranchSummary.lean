import Mcpi.CodingAgent.Paths
import Mcpi.Harness.Compaction

/-!
# Branch summaries

`branch-summarization.ts` of the coding agent and of the harness: the entries of a branch that is left, and what a
summary of them is made of. The loops are the same, over entries that each file reads in its own way.
-/

namespace Mcpi.BranchSummary

open CodingAgent (ArgumentReader FileOperations SessionEntry addTo createFileOps truthy)
open Harness (StoredDetails)

/-! ## Files -/

inductive FileSet
  | read
  | written
  | edited

def files (fileOps : FileOperations) : FileSet → List String
  | .read => fileOps.read
  | .written => fileOps.written
  | .edited => fileOps.edited

/-- Modified files count as edited. -/
def detailFiles (details : StoredDetails) : FileSet → List String
  | .read => details.readFiles.getD []
  | .written => []
  | .edited => details.modifiedFiles.getD []

/-- What `extract` adds does not depend on what is there. -/
def Adds {α : Type} (extract : FileOperations → α → FileOperations) : Prop :=
  ∀ fileOps a kind f, f ∈ files (extract fileOps a) kind ↔
    f ∈ files fileOps kind ∨ f ∈ files (extract createFileOps a) kind

/-- What the functions read of an entry and a message; `compactionDetails` is what they do not read. The
message of an entry may have no content, where `estimateTokens` looks for it. -/
structure Reading (ε μ : Type) where
  id : ε → Option String
  parentId : ε → Option String
  throwsInvalidEntry : Bool
  getMessageFromEntry : ε → Option μ
  lacksContent : ε → Bool
  isSummary : ε → Bool
  branchDetails : ε → Option StoredDetails
  compactionDetails : ε → Option StoredDetails
  estimateTokens : μ → Nat
  extractFileOpsFromMessage : FileOperations → μ → FileOperations
  adds : Adds extractFileOpsFromMessage

variable {ε μ : Type} (r : Reading ε μ)

/-! ## Collecting entries -/

section Collect

variable (getEntry : String → Option ε)

/-- The loop from an entry to its ancestors, up to one of them. -/
def walkTo (commonAncestorId : Option String) : (fuel : Nat) → Option String → Except String (List ε)
  | 0, _ => .ok []
  | fuel + 1, current =>
    match truthy current with
    | none => .ok []
    | some id =>
      if commonAncestorId = some id then .ok []
      else
        match getEntry id with
        | none => if r.throwsInvalidEntry then .error id else .ok []
        | some entry => (walkTo commonAncestorId fuel (r.parentId entry)).map (entry :: ·)

structure CollectEntriesResult (ε : Type) where
  entries : List ε
  commonAncestorId : Option String

local instance instLawfulBEqId : LawfulBEq (Option String) := inferInstance

/-- The branches are walked from the leaf on. -/
def collectEntriesForBranchSummary (fuel : Nat) (oldLeafId : Option String) (targetId : String) :
    Except String (CollectEntriesResult ε) :=
  match truthy oldLeafId with
  | none => .ok ⟨[], none⟩
  | some oldLeafId => do
    let oldPath ← walkTo r getEntry none fuel (some oldLeafId)
    let targetPath ← walkTo r getEntry none fuel (some targetId)
    let commonAncestorId := (targetPath.find? fun entry => r.id entry ∈ oldPath.map r.id).bind r.id
    let entries ← walkTo r getEntry commonAncestorId fuel (some oldLeafId)
    .ok ⟨entries.reverse, commonAncestorId⟩

end Collect

/-! ## Preparing them -/

structure BranchPreparation (μ : Type) where
  messages : List μ
  fileOps : FileOperations
  totalTokens : Nat

/-- The first pass, over the details of branch summaries -/
def recordDetails (entries : List ε) : FileOperations :=
  entries.foldl (fun fileOps entry =>
    match r.branchDetails entry with
    | none => fileOps
    | some details =>
      { fileOps with
        read := (details.readFiles.getD []).foldl addTo fileOps.read
        edited := (details.modifiedFiles.getD []).foldl addTo fileOps.edited }) createFileOps

/-- The second pass, from the newest entry on. A tenth of the budget is no limit for a summary. There is no
result where a message without content is met: a `TypeError`. -/
def selectMessages (tokenBudget : Int) :
    List ε → (messages : List μ) → FileOperations → (totalTokens : Nat) → Option (BranchPreparation μ)
  | [], messages, fileOps, totalTokens => some ⟨messages, fileOps, totalTokens⟩
  | entry :: older, messages, fileOps, totalTokens =>
    match r.getMessageFromEntry entry with
    | none => selectMessages tokenBudget older messages fileOps totalTokens
    | some message =>
      let fileOps := r.extractFileOpsFromMessage fileOps message
      if r.lacksContent entry then none
      else
        let tokens := r.estimateTokens message
        if tokenBudget > 0 ∧ totalTokens + tokens > tokenBudget then
          if r.isSummary entry = true ∧ 10 * totalTokens < 9 * tokenBudget then
            some ⟨message :: messages, fileOps, totalTokens + tokens⟩
          else some ⟨messages, fileOps, totalTokens⟩
        else selectMessages tokenBudget older (message :: messages) fileOps (totalTokens + tokens)

/-- The budget of `generateBranchSummary`, where a window of zero is unknown -/
def tokenBudgetOf (contextWindow reserveTokens : Int) : Int :=
  (if contextWindow = 0 then 128000 else contextWindow) - reserveTokens

def prepareBranchEntries (entries : List ε) (tokenBudget : Int) : Option (BranchPreparation μ) :=
  selectMessages r tokenBudget entries.reverse [] (recordDetails r entries) 0

/-! ## What they should be -/

/-- The entries of the old path that are not on the path of the target, and the first one that is. -/
def CoversAbandoned (oldPath targetPath : List ε) (result : CollectEntriesResult ε) : Prop :=
  ∃ below shared, oldPath = below ++ shared ∧ shared <:+ targetPath ∧ (∀ entry ∈ below, entry ∉ targetPath) ∧
    result.entries = below.reverse ∧ result.commonAncestorId = shared.head?.bind r.id

/-- The entries with a message -/
def messagesOf (entries : List ε) : List (ε × μ) :=
  entries.filterMap fun entry => (r.getMessageFromEntry entry).map (entry, ·)

def tokensOf (selected : List (ε × μ)) : Nat := (selected.map fun p => r.estimateTokens p.2).sum

/-- Only the oldest message may be too much, if it is a summary. -/
def WithinBudget (tokenBudget : Int) (selected : List (ε × μ)) : Prop :=
  (tokensOf r selected : Int) ≤ tokenBudget ∨
    ∃ oldest newer, selected = oldest :: newer ∧ r.isSummary oldest.1 = true ∧ (tokensOf r newer : Int) ≤ tokenBudget

/-- Read files are recorded as read, modified ones as edited or written. -/
def Includes (read edited written : List String) (details : StoredDetails) : Prop :=
  (∀ f ∈ details.readFiles.getD [], f ∈ read) ∧ ∀ f ∈ details.modifiedFiles.getD [], f ∈ edited ∨ f ∈ written

structure Prepares (entries : List ε) (tokenBudget : Int) (preparation : BranchPreparation μ) : Prop where
  run : ∃ older selected, messagesOf r entries = older ++ selected ∧
    preparation.messages = selected.map (·.2) ∧ WithinBudget r tokenBudget selected
  messages : ∀ message ∈ preparation.messages, ∀ kind,
    files (r.extractFileOpsFromMessage createFileOps message) kind ⊆ files preparation.fileOps kind
  branches : ∀ entry ∈ entries, ∀ details, r.branchDetails entry = some details →
    Includes preparation.fileOps.read preparation.fileOps.edited preparation.fileOps.written details
  compactions : ∀ entry ∈ entries, ∀ details, r.compactionDetails entry = some details →
    Includes preparation.fileOps.read preparation.fileOps.edited preparation.fileOps.written details

/-! ## When they are -/

/-- A file of the details of a branch summary, or of a message that is newer than the budget reaches back. -/
def Recorded (entries : List ε) (tokenBudget : Int) (kind : FileSet) (f : String) : Prop :=
  (∃ entry ∈ entries, ∃ details, r.branchDetails entry = some details ∧ f ∈ detailFiles details kind) ∨
    ∃ older p newer, messagesOf r entries = older ++ p :: newer ∧
      (tokenBudget ≤ 0 ∨ (tokensOf r newer : Int) ≤ tokenBudget) ∧
      f ∈ files (r.extractFileOpsFromMessage createFileOps p.2) kind

/-- No message that the budget reaches back to lacks its content; there is a budget, or none is needed; and each
file of a compaction is recorded elsewhere. -/
structure Suffices (entries : List ε) (tokenBudget : Int) : Prop where
  contents : ∀ older p newer, messagesOf r entries = older ++ p :: newer → r.lacksContent p.1 = true →
    0 < tokenBudget ∧ tokenBudget < tokensOf r newer
  budget : 0 < tokenBudget ∨ WithinBudget r tokenBudget (messagesOf r entries)
  compactions : ∀ entry ∈ entries, ∀ details, r.compactionDetails entry = some details →
    (∀ f ∈ details.readFiles.getD [], Recorded r entries tokenBudget .read f) ∧ ∀ f ∈ details.modifiedFiles.getD [],
        Recorded r entries tokenBudget .edited f ∨ Recorded r entries tokenBudget .written f

/-! ## The collected entries -/

section Tree

variable {r} {getEntry : String → Option ε} {leaf target : ε} {oldPath targetPath : List ε}

/-- The entry that a parent id leads to -/
def parentOf (r : Reading ε μ) (getEntry : String → Option ε) (entry : ε) : Option ε :=
  (truthy (r.parentId entry)).bind getEntry

/-- Entries are found under their ids, and parents are found where the loop insists on it. -/
structure Tree (r : Reading ε μ) (getEntry : String → Option ε) : Prop where
  id : ∀ id entry, getEntry id = some entry → r.id entry = some id
  linked : r.throwsInvalidEntry = true → ∀ key entry id, getEntry key = some entry →
    truthy (r.parentId entry) = some id → (getEntry id).isSome = true

/-- The path from an entry that an id leads to -/
def PathFrom (r : Reading ε μ) (getEntry : String → Option ε) (id : String) (path : List ε) : Prop :=
  id ≠ "" ∧ ∃ entry, getEntry id = some entry ∧ RootPath (parentOf r getEntry) entry path

theorem truthy_eq_some {reference : Option String} {id : String} :
    truthy reference = some id ↔ reference = some id ∧ id ≠ "" := by
  rw [truthy, Option.filter_eq_some_iff, decide_eq_true_eq]

/-- The loop takes the entries before the ancestor. -/
theorem walkTo_path (htree : Tree r getEntry) {entry : ε} {path : List ε} {commonAncestorId : Option String}
    (hpath : RootPath (parentOf r getEntry) entry path) :
    ∀ {id : String} {fuel : Nat} {below shared : List ε}, getEntry id = some entry → id ≠ "" →
      path = below ++ shared → (∀ e ∈ below, r.id e ≠ commonAncestorId) →
      shared.head?.bind r.id = commonAncestorId → path.length ≤ fuel →
      walkTo r getEntry commonAncestorId fuel (some id) = .ok below := by
  induction hpath with
  | @root entry hroot =>
    intro id fuel below shared hget hne hsplit hbelow hshared hfuel
    obtain ⟨fuel, rfl⟩ := Nat.exists_eq_add_one_of_ne_zero (Nat.ne_of_gt hfuel)
    have hid := htree.id id entry hget
    rw [walkTo, truthy_eq_some.mpr ⟨rfl, hne⟩]
    dsimp only
    cases below with
    | nil =>
      rw [List.nil_append] at hsplit
      rw [← hshared, ← hsplit, List.head?_cons, Option.bind_some, hid, if_pos rfl]
    | cons first below =>
      obtain ⟨rfl, hrest⟩ := List.cons.inj hsplit
      rw [if_neg (fun heq => hbelow _ List.mem_cons_self (hid.trans heq.symm)), hget]
      dsimp only
      obtain rfl := (List.append_eq_nil_iff.mp hrest.symm).1
      cases fuel with
      | zero => rfl
      | succ fuel =>
        rw [walkTo]
        cases hparent : truthy (r.parentId entry) with
        | none => rfl
        | some parentId =>
          -- a root with a parent id has an unknown one, which only the harness does not accept
          rw [parentOf, hparent, Option.bind_some] at hroot
          have haccepts : r.throwsInvalidEntry = false := by
            by_contra hthrows
            rw [Bool.not_eq_false] at hthrows
            have hsome := htree.linked hthrows id entry parentId hget hparent
            rw [hroot] at hsome
            cases hsome
          dsimp only
          rw [hroot, haccepts]
          split <;> rfl
  | @step entry parent path hparent hpath ih =>
    intro id fuel below shared hget hne hsplit hbelow hshared hfuel
    rw [List.length_cons] at hfuel
    obtain ⟨fuel, rfl⟩ := Nat.exists_eq_add_one_of_ne_zero (Nat.ne_of_gt (Nat.lt_of_lt_of_le (Nat.succ_pos _) hfuel))
    have hid := htree.id id entry hget
    rw [walkTo, truthy_eq_some.mpr ⟨rfl, hne⟩]
    dsimp only
    cases below with
    | nil =>
      rw [List.nil_append] at hsplit
      rw [← hshared, ← hsplit, List.head?_cons, Option.bind_some, hid, if_pos rfl]
    | cons first below =>
      obtain ⟨rfl, hrest⟩ := List.cons.inj hsplit
      rw [if_neg (fun heq => hbelow _ List.mem_cons_self (hid.trans heq.symm)), hget]
      dsimp only
      obtain ⟨parentId, htruthy, hfound⟩ := Option.bind_eq_some_iff.mp hparent
      obtain ⟨hparentId, hparentNe⟩ := truthy_eq_some.mp htruthy
      rw [hparentId, ih hfound hparentNe hrest (fun e he => hbelow e (List.mem_cons_of_mem _ he)) hshared
        (Nat.le_of_succ_le_succ hfuel)]
      rfl

theorem found_of_path {key : String} {start : ε} {path : List ε} (hstart : getEntry key = some start)
    (hpath : RootPath (parentOf r getEntry) start path) : ∀ e ∈ path, ∃ key, getEntry key = some e := by
  refine hpath.forall_mem (fun e => ∃ key, getEntry key = some e) (fun a p _ hparent => ?_) ⟨key, hstart⟩
  obtain ⟨key, -, hfound⟩ := Option.bind_eq_some_iff.mp hparent
  exact ⟨key, hfound⟩

/-- The whole path is walked without an ancestor to stop at. -/
theorem walkTo_all (htree : Tree r getEntry) {id : String} {path : List ε} {fuel : Nat}
    (hpath : PathFrom r getEntry id path) (hfuel : path.length ≤ fuel) :
    walkTo r getEntry none fuel (some id) = .ok path := by
  obtain ⟨hne, entry, hget, hroot⟩ := hpath
  refine walkTo_path htree hroot hget hne (List.append_nil path).symm (fun e he => ?_) rfl hfuel
  obtain ⟨key, hkey⟩ := found_of_path hget hroot e he
  rw [htree.id key e hkey]
  nofun

/-- **The entries of the abandoned branch are collected.** -/
theorem collect_covers (htree : Tree r getEntry) {oldLeafId targetId : String} {fuel : Nat}
    (hold : PathFrom r getEntry oldLeafId oldPath) (htarget : PathFrom r getEntry targetId targetPath)
    (hfuel : oldPath.length ≤ fuel ∧ targetPath.length ≤ fuel) :
    ∃ result, collectEntriesForBranchSummary r getEntry fuel (some oldLeafId) targetId = .ok result ∧
      CoversAbandoned r oldPath targetPath result := by
  have hall := walkTo_all htree hold hfuel.1
  have htargets := walkTo_all htree htarget hfuel.2
  obtain ⟨hne, leaf, hget, hroot⟩ := hold
  obtain ⟨-, targetEntry, htargetGet, htargetRoot⟩ := htarget
  -- entries of both paths with one id are one entry
  have hsame : ∀ a ∈ oldPath, ∀ b ∈ targetPath, r.id a = r.id b → a = b := by
    intro a ha b hb heq
    obtain ⟨key, hkey⟩ := found_of_path hget hroot a ha
    obtain ⟨key', hkey'⟩ := found_of_path htargetGet htargetRoot b hb
    rw [htree.id key a hkey, htree.id key' b hkey'] at heq
    rw [Option.some.inj heq, hkey'] at hkey
    exact (Option.some.inj hkey).symm
  have hsplit : ∃ below shared, oldPath = below ++ shared ∧ shared <:+ targetPath ∧
      (∀ entry ∈ below, entry ∉ targetPath) ∧
      (targetPath.find? fun entry => r.id entry ∈ oldPath.map r.id).bind r.id = shared.head?.bind r.id := by
    cases hfind : targetPath.find? fun entry => r.id entry ∈ oldPath.map r.id with
    | none =>
      refine ⟨oldPath, [], (List.append_nil _).symm, List.nil_suffix, fun entry hmem htarget => ?_, rfl⟩
      have hnot := List.find?_eq_none.mp hfind entry htarget
      rw [decide_eq_true_eq] at hnot
      exact hnot (List.mem_map_of_mem hmem)
    | some common =>
      obtain ⟨hcommon, before, after, htargetSplit, hbefore⟩ := List.find?_eq_some_iff_append.mp hfind
      rw [decide_eq_true_eq] at hcommon
      obtain ⟨entry, hentry, hid⟩ := List.mem_map.mp hcommon
      have hmem : common ∈ targetPath := by
        rw [htargetSplit]
        exact List.mem_append_right _ List.mem_cons_self
      obtain rfl := hsame entry hentry common hmem hid
      obtain ⟨below, shared, holdSplit, hshared⟩ := hroot.of_mem hentry
      obtain ⟨pre, post, hpost, hpostPath⟩ := htargetRoot.of_mem hmem
      obtain rfl := hshared.unique hpostPath
      refine ⟨below, shared, holdSplit, ⟨pre, hpost.symm⟩, fun e he htarget => ?_, ?_⟩
      · -- an entry below that is on the target's path stands before the one that was found, or is met twice
        rw [htargetSplit] at htarget
        rcases List.mem_append.mp htarget with hearly | hlate
        · have hnot := hbefore e hearly
          rw [Bool.not_eq_true', decide_eq_false_iff_not] at hnot
          exact hnot (List.mem_map_of_mem (holdSplit ▸ List.mem_append_left _ he))
        · rw [htargetSplit] at htargetRoot
          have hrest := htargetRoot.of_append.unique hpostPath
          rw [hrest] at hlate
          have hnodup := hroot.nodup
          rw [holdSplit] at hnodup
          exact List.disjoint_of_nodup_append hnodup he hlate
      · rw [hshared.head?_eq]
  obtain ⟨below, shared, holdSplit, hsuffix, hbelow, hcommon⟩ := hsplit
  have hids : ∀ e ∈ below, r.id e ≠ shared.head?.bind r.id := by
    intro e he heq
    have hmem : e ∈ oldPath := holdSplit ▸ List.mem_append_left _ he
    cases shared with
    | nil =>
      obtain ⟨key, hkey⟩ := found_of_path hget hroot e hmem
      rw [htree.id key e hkey] at heq
      cases heq
    | cons first rest =>
      have hfirst : first ∈ targetPath := hsuffix.subset List.mem_cons_self
      obtain rfl := hsame e hmem first hfirst heq
      exact hbelow e he hfirst
  have hwalk := walkTo_path htree hroot hget hne holdSplit hids rfl hfuel.1
  refine ⟨⟨below.reverse, shared.head?.bind r.id⟩, ?_, below, shared, holdSplit, hsuffix, hbelow, rfl, rfl⟩
  rw [collectEntriesForBranchSummary, truthy_eq_some.mpr ⟨rfl, hne⟩]
  dsimp only
  rw [hall, htargets]
  show (walkTo r getEntry _ fuel (some oldLeafId) >>= _) = _
  rw [hcommon, hwalk]
  rfl

end Tree

/-! ## The selected messages -/

section Prepare

variable {r} {tokenBudget : Int} {entries : List ε} {kind : FileSet} {f : String}

theorem messagesOf_cons (entry : ε) (older : List ε) : messagesOf r (entry :: older) =
    ((r.getMessageFromEntry entry).map (entry, ·)).toList ++ messagesOf r older := by
  rw [messagesOf, List.filterMap_cons]
  cases r.getMessageFromEntry entry <;> rfl

theorem tokensOf_cons (p : ε × μ) (rest : List (ε × μ)) :
    tokensOf r (p :: rest) = r.estimateTokens p.2 + tokensOf r rest := rfl

theorem tokensOf_append (a b : List (ε × μ)) : tokensOf r (a ++ b) = tokensOf r a + tokensOf r b := by
  rw [tokensOf, List.map_append, List.sum_append]
  rfl

theorem tokensOf_reverse (selected : List (ε × μ)) : tokensOf r selected.reverse = tokensOf r selected := by
  rw [tokensOf, List.map_reverse, List.sum_reverse]
  rfl

/-- The second pass looks at such a message, where the newest ones have `totalTokens`. -/
def Reached (r : Reading ε μ) (tokenBudget : Int) (totalTokens : Nat) (newest : List (ε × μ))
    (p : ε × μ → Prop) : Prop :=
  ∃ newer q older, newest = newer ++ q :: older ∧
    (tokenBudget ≤ 0 ∨ (totalTokens + tokensOf r newer : Int) ≤ tokenBudget) ∧ p q

/-- The message has the file. -/
def HasFile (r : Reading ε μ) (kind : FileSet) (f : String) (q : ε × μ) : Prop :=
  f ∈ files (r.extractFileOpsFromMessage createFileOps q.2) kind

/-- The message has no content. -/
def Lacks (r : Reading ε μ) (q : ε × μ) : Prop := r.lacksContent q.1 = true

variable {p : ε × μ → Prop}

theorem reached_cons {totalTokens : Nat} (hbudget : tokenBudget ≤ 0 ∨ (totalTokens : Int) ≤ tokenBudget)
    (q : ε × μ) (rest : List (ε × μ)) :
    Reached r tokenBudget totalTokens (q :: rest) p ↔
      p q ∨ Reached r tokenBudget (totalTokens + r.estimateTokens q.2) rest p := by
  constructor
  · rintro ⟨newer, q', older, hsplit, hwithin, hp⟩
    cases newer with
    | nil =>
      obtain ⟨rfl, rfl⟩ := List.cons.inj hsplit
      exact .inl hp
    | cons first newer =>
      obtain ⟨rfl, hrest⟩ := List.cons.inj hsplit
      rw [tokensOf_cons] at hwithin
      exact .inr ⟨newer, q', older, hrest, by push_cast at hwithin ⊢; omega, hp⟩
  · rintro (hp | ⟨newer, q', older, rfl, hwithin, hp⟩)
    · exact ⟨[], q, rest, rfl, by rw [tokensOf]; simpa using hbudget, hp⟩
    · exact ⟨q :: newer, q', older, rfl, by rw [tokensOf_cons]; push_cast at hwithin ⊢; omega, hp⟩

theorem not_reached_nil {totalTokens : Nat} : ¬ Reached r tokenBudget totalTokens [] p := by
  rintro ⟨newer, q, older, hsplit, -⟩
  simp at hsplit

theorem not_reached {totalTokens : Nat} (hpos : 0 < tokenBudget) (hmore : tokenBudget < totalTokens)
    (newest : List (ε × μ)) : ¬ Reached r tokenBudget totalTokens newest p := by
  rintro ⟨newer, q, older, -, hwithin, -⟩
  omega

/-- What the second pass takes, from the newest message on -/
structure Takes (r : Reading ε μ) (tokenBudget : Int) (totalTokens : Nat) (newest taken : List (ε × μ)) : Prop where
  isPrefix : taken <+: newest
  all : tokenBudget ≤ 0 → taken = newest
  within : 0 < tokenBudget → (totalTokens + tokensOf r taken : Int) ≤ tokenBudget ∨
    ∃ newer oldest, taken = newer ++ [oldest] ∧ r.isSummary oldest.1 = true ∧
      (totalTokens + tokensOf r newer : Int) ≤ tokenBudget

/-- **The second pass** meets a message without content or takes the newest messages. -/
theorem selectMessages_spec (newest : List ε) (messages : List μ) (fileOps : FileOperations) (totalTokens : Nat)
    (hbudget : tokenBudget ≤ 0 ∨ (totalTokens : Int) ≤ tokenBudget) :
    match selectMessages r tokenBudget newest messages fileOps totalTokens with
    | none => Reached r tokenBudget totalTokens (messagesOf r newest) (Lacks r)
    | some preparation => ¬ Reached r tokenBudget totalTokens (messagesOf r newest) (Lacks r) ∧
      (∃ taken, Takes r tokenBudget totalTokens (messagesOf r newest) taken ∧
        preparation.messages = (taken.map (·.2)).reverse ++ messages) ∧
      ∀ kind f, f ∈ files preparation.fileOps kind ↔
        f ∈ files fileOps kind ∨ Reached r tokenBudget totalTokens (messagesOf r newest) (HasFile r kind f) := by
  induction newest generalizing messages fileOps totalTokens with
  | nil =>
    refine ⟨not_reached_nil, ⟨[], ⟨List.prefix_rfl, fun _ => rfl, fun hpos => .inl ?_⟩, rfl⟩, fun kind f => ?_⟩
    · have htotal := hbudget.resolve_left (Int.not_le.mpr hpos)
      simpa [tokensOf] using htotal
    · exact (or_iff_left not_reached_nil).symm
  | cons entry older ih =>
    rw [selectMessages, messagesOf_cons]
    cases hmessage : r.getMessageFromEntry entry with
    | none => exact ih messages fileOps totalTokens hbudget
    | some message =>
      have hadds := r.adds fileOps message
      dsimp only [Option.map_some, Option.toList_some, List.singleton_append]
      by_cases hlacks : r.lacksContent entry = true
      · rw [if_pos hlacks]
        exact (reached_cons hbudget _ _).mpr (.inl hlacks)
      rw [if_neg hlacks]
      by_cases hexceeds : tokenBudget > 0 ∧ totalTokens + r.estimateTokens message > tokenBudget
      · -- nothing older is looked at
        rw [if_pos hexceeds]
        obtain ⟨hpos, hmore⟩ := hexceeds
        have htotal := hbudget.resolve_left (Int.not_le.mpr hpos)
        have hstop : ∀ p, ¬ Reached r tokenBudget (totalTokens + r.estimateTokens message) (messagesOf r older) p :=
          fun p => not_reached hpos (by push_cast; omega) _
        have hmet : ¬ Reached r tokenBudget totalTokens ((entry, message) :: messagesOf r older) (Lacks r) :=
          fun h => ((reached_cons hbudget _ _).mp h).elim hlacks (hstop _)
        have hfiles : ∀ kind f, f ∈ files (r.extractFileOpsFromMessage fileOps message) kind ↔ f ∈ files fileOps kind ∨
            Reached r tokenBudget totalTokens ((entry, message) :: messagesOf r older) (HasFile r kind f) := by
          intro kind f
          rw [hadds kind f, reached_cons hbudget]
          exact or_congr_right (or_iff_left (hstop _)).symm
        split_ifs with hsummary
        · refine ⟨hmet, ⟨[(entry, message)], ⟨⟨_, rfl⟩, fun hle => absurd hpos (Int.not_lt.mpr hle), fun _ => .inr ?_⟩,
            rfl⟩, hfiles⟩
          exact ⟨[], (entry, message), rfl, hsummary.1, by simpa [tokensOf] using htotal⟩
        · refine ⟨hmet, ⟨[], ⟨List.nil_prefix, fun hle => absurd hpos (Int.not_lt.mpr hle), fun _ => .inl ?_⟩, rfl⟩,
            hfiles⟩
          simpa [tokensOf] using htotal
      · rw [if_neg hexceeds]
        have hnext : tokenBudget ≤ 0 ∨ ((totalTokens + r.estimateTokens message : Nat) : Int) ≤ tokenBudget := by
          by_contra hnot
          rw [not_or] at hnot
          exact hexceeds ⟨Int.not_le.mp hnot.1, by have hlt := hnot.2; push_cast at hlt; omega⟩
        have hrest := ih (message :: messages) (r.extractFileOpsFromMessage fileOps message)
          (totalTokens + r.estimateTokens message) hnext
        revert hrest
        cases selectMessages r tokenBudget older (message :: messages) (r.extractFileOpsFromMessage fileOps message)
          (totalTokens + r.estimateTokens message) with
        | none => exact fun hrest => (reached_cons hbudget _ _).mpr (.inr hrest)
        | some preparation =>
          rintro ⟨hmet, ⟨taken, htakes, hmessages⟩, hfiles⟩
          refine ⟨fun h => ((reached_cons hbudget _ _).mp h).elim hlacks hmet,
            ⟨(entry, message) :: taken, ⟨?_, fun hle => ?_, fun hpos => ?_⟩, ?_⟩, fun kind f => ?_⟩
          · exact List.prefix_cons_inj _ |>.mpr htakes.isPrefix
          · rw [htakes.all hle]
          · rcases htakes.within hpos with hwithin | ⟨newer, oldest, rfl, hsummary, hwithin⟩
            · exact .inl (by rw [tokensOf_cons]; push_cast at hwithin ⊢; omega)
            · refine .inr ⟨(entry, message) :: newer, oldest, rfl, hsummary, ?_⟩
              rw [tokensOf_cons]
              push_cast at hwithin ⊢
              omega
          · rw [hmessages, List.map_cons, List.reverse_cons, List.append_assoc]
            rfl
          · rw [hfiles kind f, hadds kind f, reached_cons hbudget, or_assoc]
            rfl

theorem mem_addTo (set : List String) (value : String) : f ∈ addTo set value ↔ f ∈ set ∨ f = value := by
  rw [addTo]
  split
  next hmem => exact ⟨.inl, fun h => h.elim id fun heq => heq ▸ hmem⟩
  · rw [List.mem_append, List.mem_singleton]

theorem mem_foldl_addTo (set values : List String) : f ∈ values.foldl addTo set ↔ f ∈ set ∨ f ∈ values := by
  induction values generalizing set with
  | nil => simp
  | cons value values ih => rw [List.foldl_cons, ih, mem_addTo, List.mem_cons, or_assoc]

theorem mem_recordDetails (entries : List ε) (fileOps : FileOperations) :
    f ∈ files (entries.foldl (fun fileOps entry =>
      match r.branchDetails entry with
      | none => fileOps
      | some details =>
        { fileOps with
          read := (details.readFiles.getD []).foldl addTo fileOps.read
          edited := (details.modifiedFiles.getD []).foldl addTo fileOps.edited }) fileOps) kind ↔
      f ∈ files fileOps kind ∨
        ∃ entry ∈ entries, ∃ details, r.branchDetails entry = some details ∧ f ∈ detailFiles details kind := by
  induction entries generalizing fileOps with
  | nil => simp
  | cons entry entries ih =>
    rw [List.foldl_cons, ih]
    cases hdetails : r.branchDetails entry with
    | none => simp [hdetails]
    | some details => cases kind <;> simp [files, detailFiles, hdetails, mem_foldl_addTo, or_assoc]

theorem messagesOf_reverse (entries : List ε) : messagesOf r entries.reverse = (messagesOf r entries).reverse := by
  rw [messagesOf, List.filterMap_reverse]
  rfl

/-- What the second pass looks at, from the oldest message on -/
theorem reached_reverse (entries : List ε) : Reached r tokenBudget 0 (messagesOf r entries.reverse) p ↔
    ∃ older q newer, messagesOf r entries = older ++ q :: newer ∧
      (tokenBudget ≤ 0 ∨ (tokensOf r newer : Int) ≤ tokenBudget) ∧ p q := by
  rw [messagesOf_reverse]
  constructor
  · rintro ⟨newer, q, older, hsplit, hwithin, hp⟩
    refine ⟨older.reverse, q, newer.reverse, ?_, ?_, hp⟩
    · rw [← List.reverse_reverse (messagesOf r entries), hsplit]
      simp
    · rw [tokensOf_reverse]
      simpa using hwithin
  · rintro ⟨older, q, newer, hsplit, hwithin, hp⟩
    refine ⟨newer.reverse, q, older.reverse, by rw [hsplit]; simp, ?_, hp⟩
    rw [tokensOf_reverse]
    simpa using hwithin

variable {preparation : BranchPreparation μ}

/-- **A preparation**: no content is missed, the newest messages are taken, and files are recorded. -/
theorem prepareBranchEntries_spec (h : prepareBranchEntries r entries tokenBudget = some preparation) :
    ¬ Reached r tokenBudget 0 (messagesOf r entries.reverse) (Lacks r) ∧
      (∃ taken, Takes r tokenBudget 0 (messagesOf r entries).reverse taken ∧
        preparation.messages = taken.reverse.map (·.2)) ∧
      ∀ kind f, f ∈ files preparation.fileOps kind ↔ Recorded r entries tokenBudget kind f := by
  have hspec := selectMessages_spec (r := r) entries.reverse [] (recordDetails r entries) 0
    (by omega : tokenBudget ≤ 0 ∨ ((0 : Nat) : Int) ≤ tokenBudget)
  have hselect : selectMessages r tokenBudget entries.reverse [] (recordDetails r entries) 0 = some preparation := h
  rw [hselect] at hspec
  obtain ⟨hcontents, ⟨taken, htakes, hmessages⟩, hfiles⟩ := hspec
  refine ⟨hcontents, ⟨taken, messagesOf_reverse entries ▸ htakes, ?_⟩, fun kind f => ?_⟩
  · rw [hmessages, List.append_nil, List.map_reverse]
  · rw [hfiles kind f, reached_reverse, recordDetails, mem_recordDetails, Recorded]
    refine or_congr_left (or_iff_right ?_)
    cases kind <;> exact List.not_mem_nil

theorem contents_iff : (prepareBranchEntries r entries tokenBudget).isSome = true ↔
    ∀ older q newer, messagesOf r entries = older ++ q :: newer → r.lacksContent q.1 = true →
      0 < tokenBudget ∧ tokenBudget < tokensOf r newer := by
  have hspec := selectMessages_spec (r := r) entries.reverse [] (recordDetails r entries) 0
    (by omega : tokenBudget ≤ 0 ∨ ((0 : Nat) : Int) ≤ tokenBudget)
  rw [← prepareBranchEntries] at hspec
  have hmet : (prepareBranchEntries r entries tokenBudget).isSome = true ↔
      ¬ Reached r tokenBudget 0 (messagesOf r entries.reverse) (Lacks r) := by
    cases hprepare : prepareBranchEntries r entries tokenBudget with
    | none =>
      rw [hprepare] at hspec
      exact iff_of_false Bool.false_ne_true (not_not.mpr hspec)
    | some preparation =>
      rw [hprepare] at hspec
      exact iff_of_true rfl hspec.1
  rw [hmet, reached_reverse]
  constructor
  · intro hnot older q newer hsplit hlacks
    by_contra hwithin
    exact hnot ⟨older, q, newer, hsplit, by omega, hlacks⟩
  · rintro h ⟨older, q, newer, hsplit, hwithin, hlacks⟩
    have hbeyond := h older q newer hsplit hlacks
    omega

end Prepare

/-! ## The branch and its summary -/

section Exact

variable {r} {tokenBudget : Int}

theorem WithinBudget.newer {selected older newer : List (ε × μ)} {p : ε × μ} (h : WithinBudget r tokenBudget selected)
    (hsplit : selected = older ++ p :: newer) : (tokensOf r newer : Int) ≤ tokenBudget := by
  rcases h with hall | ⟨oldest, rest, hrest, -, hrestTokens⟩
  · rw [hsplit, tokensOf_append, tokensOf_cons] at hall
    push_cast at hall
    omega
  · rw [hrest] at hsplit
    cases older with
    | nil =>
      obtain ⟨-, rfl⟩ := List.cons.inj hsplit
      exact hrestTokens
    | cons first older =>
      obtain ⟨-, rfl⟩ := List.cons.inj hsplit
      change (tokensOf r (older ++ p :: newer) : Int) ≤ tokenBudget at hrestTokens
      rw [tokensOf_append, tokensOf_cons] at hrestTokens
      push_cast at hrestTokens
      omega

/-- **A summary is prepared as it should be** just if no content is missed, there is a budget, and compactions
hide no files. -/
theorem prepares_iff (entries : List ε) (tokenBudget : Int) :
    (∃ preparation, prepareBranchEntries r entries tokenBudget = some preparation ∧
      Prepares r entries tokenBudget preparation) ↔ Suffices r entries tokenBudget := by
  constructor
  · rintro ⟨preparation, hprepare, h⟩
    obtain ⟨-, ⟨taken, htakes, hmessages⟩, hfiles⟩ := prepareBranchEntries_spec hprepare
    refine ⟨contents_iff.mp (by rw [hprepare]; rfl), ?_, fun entry hentry details hdetails => ?_⟩
    · by_cases hpos : 0 < tokenBudget
      · exact .inl hpos
      · right
        obtain ⟨older, selected, hsplit, hselected, hwithin⟩ := h.run
        rw [hmessages, htakes.all (Int.not_lt.mp hpos), List.reverse_reverse, hsplit] at hselected
        have hlength := congrArg List.length hselected
        rw [List.length_map, List.length_map, List.length_append] at hlength
        obtain rfl := List.length_eq_zero_iff.mp (by omega : older.length = 0)
        rw [hsplit]
        exact hwithin
    · obtain ⟨hread, hmodified⟩ := h.compactions entry hentry details hdetails
      refine ⟨fun f hf => (hfiles .read f).mp (hread f hf), fun f hf => ?_⟩
      exact (hmodified f hf).imp (hfiles .edited f).mp (hfiles .written f).mp
  · intro h
    obtain ⟨preparation, hprepare⟩ := Option.isSome_iff_exists.mp (contents_iff.mpr h.contents)
    obtain ⟨-, ⟨taken, htakes, hmessages⟩, hfiles⟩ := prepareBranchEntries_spec hprepare
    obtain ⟨others, hothers⟩ := htakes.isPrefix
    have hsplit : messagesOf r entries = others.reverse ++ taken.reverse := by
      rw [← List.reverse_append, hothers, List.reverse_reverse]
    have hwithin : WithinBudget r tokenBudget taken.reverse := by
      by_cases hpos : 0 < tokenBudget
      · rcases htakes.within hpos with hall | ⟨newer, oldest, rfl, hsummary, hnewer⟩
        · exact .inl (by rw [tokensOf_reverse]; simpa using hall)
        · refine .inr ⟨oldest, newer.reverse, List.reverse_concat, hsummary, ?_⟩
          rw [tokensOf_reverse]
          simpa using hnewer
      · rw [htakes.all (Int.not_lt.mp hpos), List.reverse_reverse]
        exact h.budget.resolve_left hpos
    have hincludes : ∀ details,
        (∀ f ∈ details.readFiles.getD [], Recorded r entries tokenBudget .read f) ∧
          (∀ f ∈ details.modifiedFiles.getD [],
            Recorded r entries tokenBudget .edited f ∨ Recorded r entries tokenBudget .written f) →
        Includes preparation.fileOps.read preparation.fileOps.edited preparation.fileOps.written details := by
      rintro details ⟨hread, hmodified⟩
      refine ⟨fun f hf => (hfiles .read f).mpr (hread f hf), fun f hf => ?_⟩
      exact (hmodified f hf).imp (hfiles .edited f).mpr (hfiles .written f).mpr
    refine ⟨preparation, hprepare, ⟨others.reverse, taken.reverse, hsplit, hmessages, hwithin⟩, ?_, ?_, ?_⟩
    · intro message hmessage kind f hf
      rw [hmessages] at hmessage
      obtain ⟨q, hq, rfl⟩ := List.mem_map.mp hmessage
      obtain ⟨older, newer, hselected⟩ := List.append_of_mem hq
      rw [hfiles kind f]
      refine .inr ⟨others.reverse ++ older, q, newer, ?_, .inr (hwithin.newer hselected), hf⟩
      rw [hsplit, hselected, List.append_assoc]
    · intro entry hentry details hdetails
      apply hincludes
      exact ⟨fun f hf => .inl ⟨entry, hentry, details, hdetails, hf⟩,
        fun f hf => .inl (.inl ⟨entry, hentry, details, hdetails, hf⟩)⟩
    · exact fun entry hentry details hdetails => hincludes details (h.compactions entry hentry details hdetails)

/-- The path from the old leaf, if there is one -/
def PathOf (r : Reading ε μ) (getEntry : String → Option ε) (reference : Option String) (path : List ε) : Prop :=
  match truthy reference with
  | none => path = []
  | some id => PathFrom r getEntry id path

/-- **A branch summary covers the abandoned path**, and is prepared from it as it should be just if `Suffices` holds.
The fuel is enough for both paths. -/
theorem branchSummary_exact_iff {getEntry : String → Option ε} (htree : Tree r getEntry) {oldLeafId : Option String}
    {targetId : String} {oldPath targetPath : List ε} {fuel : Nat} (hold : PathOf r getEntry oldLeafId oldPath)
    (htarget : PathFrom r getEntry targetId targetPath)
    (hfuel : oldPath.length ≤ fuel ∧ targetPath.length ≤ fuel) (contextWindow reserveTokens : Int) :
    ∃ result, collectEntriesForBranchSummary r getEntry fuel oldLeafId targetId = .ok result ∧
      CoversAbandoned r oldPath targetPath result ∧
      ((∃ preparation, prepareBranchEntries r result.entries (tokenBudgetOf contextWindow reserveTokens) =
          some preparation ∧ Prepares r result.entries (tokenBudgetOf contextWindow reserveTokens) preparation) ↔
        Suffices r result.entries (tokenBudgetOf contextWindow reserveTokens)) := by
  rw [PathOf] at hold
  cases hleaf : truthy oldLeafId with
  | none =>
    rw [hleaf] at hold
    refine ⟨⟨[], none⟩, by rw [collectEntriesForBranchSummary, hleaf], ?_, prepares_iff _ _⟩
    exact ⟨[], [], hold, List.nil_suffix, nofun, rfl, rfl⟩
  | some id =>
    rw [hleaf] at hold
    obtain ⟨rfl, -⟩ := truthy_eq_some.mp hleaf
    obtain ⟨result, hresult, hcovers⟩ := collect_covers htree hold htarget hfuel
    exact ⟨result, hresult, hcovers, prepares_iff _ _⟩

end Exact

/-! ## The two files -/

section Readings

variable {δ : Type} (args : ArgumentReader δ)

theorem adds_extractFileOpsFromBlock : Adds (CodingAgent.extractFileOpsFromBlock args) := by
  intro fileOps block kind f
  cases block with
  | toolCall id name arguments =>
    simp only [CodingAgent.extractFileOpsFromBlock]
    cases truthy (args.path arguments) with
    | none => cases kind <;> simp [files, createFileOps]
    | some path => split_ifs <;> cases kind <;> simp [files, createFileOps, mem_addTo]
  | _ => cases kind <;> simp [CodingAgent.extractFileOpsFromBlock, files, createFileOps]

theorem Adds.foldl {α : Type} {extract : FileOperations → α → FileOperations} (h : Adds extract) :
    Adds fun fileOps (values : List α) => values.foldl extract fileOps := by
  intro fileOps values kind f
  induction values generalizing fileOps with
  | nil => cases kind <;> simp [files, createFileOps]
  | cons value values ih =>
    dsimp only [List.foldl_cons] at ih ⊢
    rw [ih, h fileOps value, ih (extract createFileOps value), or_assoc]

theorem not_mem_createFileOps (kind : FileSet) (f : String) : f ∉ files createFileOps kind := by
  cases kind <;> exact List.not_mem_nil

namespace CodingAgent

open Mcpi.CodingAgent

def getMessageFromEntry (entry : SessionEntry δ) : Option (AgentMessage δ) :=
  match entry.body with
  | .message (.toolResult ..) => none
  | .message message => some message
  | .custom_message customType content display details =>
    some (.custom customType (content.getD (.blocks [])) display details (.parsed entry.timestamp))
  | .branch_summary fromId summary .. => some (.branchSummary summary fromId (.parsed entry.timestamp))
  | .compaction fields => some (.compactionSummary fields.summary fields.tokensBefore (.parsed entry.timestamp))
  | _ => none

/-- Messages from elsewhere, and custom messages of extensions, may have been stored without content. -/
def lacksContent (entry : SessionEntry δ) : Bool :=
  match entry.body with
  | .message (.user none _) => true
  | .message (.assistant none ..) => true
  | .custom_message _ none _ _ => true
  | _ => false

/-- `storedDetails` is how the details of an entry read. Those of extensions do not count. -/
def reading (storedDetails : δ → StoredDetails) : Reading (SessionEntry δ) (AgentMessage δ) where
  id := SessionEntry.id
  parentId := SessionEntry.parentId
  throwsInvalidEntry := false
  getMessageFromEntry := getMessageFromEntry
  lacksContent := lacksContent
  isSummary entry :=
    match entry.body with
    | .compaction _ => true
    | .branch_summary .. => true
    | _ => false
  branchDetails entry :=
    match entry.body with
    | .branch_summary _ _ (some details) false => some (storedDetails details)
    | _ => none
  compactionDetails entry :=
    match entry.body with
    | .compaction ⟨_, _, _, _, some details, _, false⟩ => some ⟨some details.readFiles, some details.modifiedFiles⟩
    | _ => none
  estimateTokens := estimateTokens args
  extractFileOpsFromMessage := extractFileOpsFromMessage args
  adds fileOps message kind f := by
    cases message with
    | assistant content =>
      cases content with
      | some content => exact (adds_extractFileOpsFromBlock args).foldl fileOps content kind f
      | none => exact (or_iff_left (not_mem_createFileOps kind f)).symm
    | _ => exact (or_iff_left (not_mem_createFileOps kind f)).symm

end CodingAgent

namespace Harness

open Mcpi.Harness

def getMessageFromEntry (entry : Entry δ) : Option (AgentMessage δ) :=
  match entry.body with
  | .message (.toolResult ..) => none
  | .message message => some message
  | .branch_summary fromId summary => some (.branchSummary summary fromId entry.timestamp)
  | .compaction fields => some (.compactionSummary fields.summary fields.tokensBefore entry.timestamp)
  | _ => none

/-- `branchDetails` are the details of a branch summary. -/
def reading (branchDetails : Entry δ → Option StoredDetails) : Reading (Entry δ) (AgentMessage δ) where
  id entry := some entry.id
  parentId := Entry.parentId
  throwsInvalidEntry := true
  getMessageFromEntry := getMessageFromEntry
  lacksContent _ := false
  isSummary entry :=
    match entry.body with
    | .compaction _ => true
    | .branch_summary .. => true
    | _ => false
  branchDetails entry :=
    match entry.body with
    | .branch_summary .. => branchDetails entry
    | _ => none
  compactionDetails entry := entry.compaction?.bind CompactionFields.details
  estimateTokens := estimateTokens args
  extractFileOpsFromMessage := extractFileOpsFromMessage args
  adds fileOps message kind f := by
    cases message with
    | assistant content => exact (adds_extractFileOpsFromBlock args).foldl fileOps content kind f
    | _ => exact (or_iff_left (not_mem_createFileOps kind f)).symm

end Harness

end Readings

/-! ## A branch with a compaction -/

section Compacted

private def userEntry (id : String) (parentId : Option String) : SessionEntry Unit :=
  ⟨some id, parentId, "2026-11-19T10:00:00.000Z", .message (.user (some (.text "hello")) (.parsed "2026-11-19"))⟩

private def compactionEntry : SessionEntry Unit :=
  ⟨some "b", some "a", "2026-11-19T10:00:00.000Z",
    .compaction ⟨"summary", some "a", none, 1000, some ⟨["notes.md"], []⟩, none, false⟩⟩

private def getEntry : String → Option (SessionEntry Unit)
  | "a" => some (userEntry "a" none)
  | "b" => some compactionEntry
  | "c" => some (userEntry "c" (some "b"))
  | _ => none

private def compacted : Reading (SessionEntry Unit) (CodingAgent.AgentMessage Unit) :=
  CodingAgent.reading ⟨fun _ => "", fun _ => none⟩ fun _ => ⟨none, none⟩

theorem branchSummary_exact_compacted :
    ∃ result, collectEntriesForBranchSummary compacted getEntry 3 (some "c") "a" = .ok result ∧
      CoversAbandoned compacted [userEntry "c" (some "b"), compactionEntry, userEntry "a" none]
        [userEntry "a" none] result ∧
      ((∃ preparation, prepareBranchEntries compacted result.entries (tokenBudgetOf 200000 16384) = some preparation ∧
          Prepares compacted result.entries (tokenBudgetOf 200000 16384) preparation) ↔
        Suffices compacted result.entries (tokenBudgetOf 200000 16384)) := by
  have htree : Tree compacted getEntry := by
    refine ⟨fun id entry hget => ?_, nofun⟩
    unfold getEntry at hget
    split at hget <;> cases hget <;> rfl
  have hroot : RootPath (parentOf compacted getEntry) (userEntry "a" none) [userEntry "a" none] := .root rfl
  have hpath : PathFrom compacted getEntry "c" [userEntry "c" (some "b"), compactionEntry, userEntry "a" none] :=
    ⟨by decide, _, rfl, .step (p := compactionEntry) rfl (.step (p := userEntry "a" none) rfl hroot)⟩
  have hleaf : PathOf compacted getEntry (some "c") _ := hpath
  exact branchSummary_exact_iff htree hleaf ⟨by decide, _, rfl, hroot⟩ ⟨by decide, by decide⟩ 200000 16384

/-- The files of the compaction are lost, a budget of nothing is no limit, and a custom message without content
is the end of it. -/
theorem compaction_files_lost :
    ∃ entries, collectEntriesForBranchSummary compacted getEntry 3 (some "c") "a" = .ok ⟨entries, some "a"⟩ ∧
      (∀ preparation, prepareBranchEntries compacted entries (tokenBudgetOf 200000 16384) = some preparation →
        ¬ Prepares compacted entries (tokenBudgetOf 200000 16384) preparation) ∧
      (∀ preparation, prepareBranchEntries compacted entries (tokenBudgetOf 16384 16384) = some preparation →
        ¬ ∃ older selected, messagesOf compacted entries = older ++ selected ∧
          preparation.messages = selected.map (·.2) ∧
          WithinBudget compacted (tokenBudgetOf 16384 16384) selected) ∧
      prepareBranchEntries compacted [⟨some "x", none, "", .custom_message "x" none true none⟩]
        (tokenBudgetOf 200000 16384) = none := by
  refine ⟨[compactionEntry, userEntry "c" (some "b")], rfl, ?_, ?_, rfl⟩
  · rintro _ ⟨⟩ h
    have hlost := (h.compactions compactionEntry List.mem_cons_self _ rfl).1 "notes.md" List.mem_cons_self
    exact List.not_mem_nil hlost
  · rintro _ ⟨⟩ ⟨older, selected, hsplit, hmessages, hwithin⟩
    have hlength := congrArg List.length hmessages
    have htotal : 2 = (older ++ selected).length := congrArg List.length hsplit
    rw [List.length_map, show List.length _ = 2 from rfl] at hlength
    rw [List.length_append, ← hlength] at htotal
    obtain rfl : older = [] := List.eq_nil_of_length_eq_zero (by omega)
    obtain rfl := hsplit
    rcases hwithin with hall | ⟨oldest, newer, hnewer, -, hle⟩
    · exact absurd hall (by decide)
    · obtain ⟨-, rfl⟩ := List.cons.inj hnewer
      exact absurd hle (by decide)

end Compacted

end Mcpi.BranchSummary
