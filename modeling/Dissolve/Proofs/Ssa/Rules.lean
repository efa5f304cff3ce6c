import Dissolve.Proofs.Graph.Dominance
import Dissolve.Proofs.Ssa.Availability
import Dissolve.Ssa.Verify

/-!
# Proofs.Ssa.Rules — what the rules of SSA form ask for

`verify` computes lists of violations. Each list is empty for a reason that can be said without it:

* `blockViolations_eq_nil_iff`: a block ends in its only terminator, jumps to live blocks and lists
  what belongs to it, each phi with one operand per predecessor,
* `Exact.useViolations_eq_nil_iff`: with exact bookkeeping only undefined reads are left to report,
* `edgeViolations_eq_nil_iff`: predecessors are counted by the edges,
* `Framed.dominanceViolations_eq_nil_iff`: every *route* to a use, a way from the entry along normal
  and exceptional edges, has come by the definition.

The check of the last rule asks a dominator tree. A definition that stands on every route to a block
stands in a dominating one, and the other way round; inside a block the places in its list decide.
Main statement: `verify_eq_ok_iff_preceded`.
-/

namespace Dissolve

open List

variable {α : Type} {f : Function} {b : BlockId} {v : ValueId} {i : InsnId} {p : PhiId} {a : Nat}
  {t : List BlockId} {after before done : List InsnId} {nodes : List Nat}

/-! ## Sorting -/

section Keyed

variable {cmp : α → α → Ordering} {key : α → Nat}

lemma pairwise_insertSorted (hcmp : ∀ a b, cmp a b = compare (key a) (key b)) (x : α)
    {xs : List α} (h : xs.Pairwise fun a b => key a ≤ key b) :
    (insertSorted cmp x xs).Pairwise fun a b => key a ≤ key b := by
  induction xs with
  | nil => simp [insertSorted]
  | cons y rest ih =>
    obtain ⟨hy, hrest⟩ := pairwise_cons.1 h
    rw [insertSorted]
    split
    · rename_i hlt
      rw [hcmp, Nat.compare_eq_lt] at hlt
      refine pairwise_cons.2 ⟨?_, h⟩
      rintro z (_ | ⟨_, hz⟩)
      · exact hlt.le
      · exact hlt.le.trans (hy z hz)
    · rename_i hlt
      rw [hcmp, Nat.compare_eq_lt, Nat.not_lt] at hlt
      refine pairwise_cons.2 ⟨?_, ih hrest⟩
      intro z hz
      rcases mem_cons.1 ((perm_insertSorted cmp x rest).mem_iff.1 hz) with rfl | hz
      · exact hlt
      · exact hy z hz

lemma pairwise_sortBy (hcmp : ∀ a b, cmp a b = compare (key a) (key b)) (xs : List α) :
    (sortBy cmp xs).Pairwise fun a b => key a ≤ key b := by
  have hfold : ∀ acc : List α, (acc.Pairwise fun a b => key a ≤ key b) →
      (xs.foldl (fun sorted x => insertSorted cmp x sorted) acc).Pairwise
        fun a b => key a ≤ key b := by
    induction xs with
    | nil => exact fun acc h => h
    | cons x rest ih => exact fun acc h => ih _ (pairwise_insertSorted hcmp x h)
  exact hfold [] List.Pairwise.nil

end Keyed

lemma BlockId.compare_eq (a b : BlockId) : compare a b = compare a.index b.index := by
  obtain ⟨m⟩ := a
  obtain ⟨n⟩ := b
  simp [compare, instOrdBlockId.ord]

namespace Ssa.Function

/-! ## Listings -/

lemma mem_blockIds (f : Function) (b : BlockId) : b ∈ f.blockIds ↔ f.LiveBlock b := by
  simp only [blockIds, mem_filter, mem_map, mem_range, Bool.not_eq_true']
  constructor
  · exact fun h => h.2
  · exact fun h => ⟨⟨b.index, f.lt_blocks_of_live h, rfl⟩, h⟩

lemma nodup_blockIds (f : Function) : f.blockIds.Nodup := by
  refine List.Nodup.filter _ (List.Nodup.map ?_ nodup_range)
  intro a b h
  exact BlockId.mk.inj h

lemma pairwise_blockIds (f : Function) : f.blockIds.Pairwise fun a b => a.index < b.index := by
  refine List.Pairwise.filter _ ?_
  rw [pairwise_map]
  exact pairwise_lt_range

lemma mem_insnIds_iff (f : Function) (i : InsnId) :
    i ∈ f.insnIds ↔ ∃ b, f.LiveBlock b ∧ i ∈ (f.block b).insns := by
  simp only [insnIds, mem_flatMap, mem_blockIds]

lemma mem_phiIds_iff (f : Function) (p : PhiId) :
    p ∈ f.phiIds ↔ ∃ b, f.LiveBlock b ∧ p ∈ (f.block b).phis := by
  simp only [phiIds, mem_flatMap, mem_blockIds]

namespace Exact

lemma nodup_insnIds (h : f.Exact) : f.insnIds.Nodup := by
  refine nodup_flatMap.2 ⟨fun b _ => h.insns_nodup b, ?_⟩
  refine f.nodup_blockIds.imp ?_
  intro b c hbc i hb hc
  rw [h.insns_iff] at hb hc
  exact hbc (hb.2.symm.trans hc.2)

lemma nodup_phiIds (h : f.Exact) : f.phiIds.Nodup := by
  refine nodup_flatMap.2 ⟨fun b _ => h.phis_nodup b, ?_⟩
  refine f.nodup_blockIds.imp ?_
  intro b c hbc p hb hc
  rw [h.phis_iff] at hb hc
  exact hbc (hb.2.symm.trans hc.2)

lemma live_of_mem_phiIds (h : f.Exact) (hp : p ∈ f.phiIds) : f.LivePhi p := by
  obtain ⟨b, -, hb⟩ := (f.mem_phiIds_iff p).1 hp
  exact ((h.phis_iff b p).1 hb).1

lemma nodup_definedValues (h : f.Exact) : f.definedValues.Nodup := by
  have hunique := fun {v} {s t : Site} => h.defines_unique (v := v) (s := s) (t := t)
  refine nodup_append.2 ⟨?_, ?_, ?_⟩
  · refine List.Nodup.filterMap ?_ h.nodup_insnIds
    intro i j v hi hj
    exact Site.insn.inj (hunique (s := .insn i) (t := .insn j) hi hj)
  · refine List.Nodup.map_on ?_ h.nodup_phiIds
    intro p hp q hq heq
    exact Site.phi.inj (hunique (s := .phi p) (t := .phi q) ⟨h.live_of_mem_phiIds hp, rfl⟩
      ⟨h.live_of_mem_phiIds hq, heq.symm⟩)
  · intro v hv w hw hvw
    subst hvw
    rw [mem_filterMap] at hv
    rw [mem_map] at hw
    obtain ⟨i, -, hi⟩ := hv
    obtain ⟨p, hp, hw⟩ := hw
    exact absurd (hunique (s := .insn i) (t := .phi p) hi ⟨h.live_of_mem_phiIds hp, hw⟩) (by simp)

end Exact

/-! ## Removed blocks -/

/-- The bookkeeping is exact, and nothing is left in removed blocks. -/
structure Orderly (f : Function) : Prop where
  exact : f.Exact
  gone : ∀ b, (f.block b).removed = true → f.block b = Block.gone

namespace Orderly

section

variable (h : f.Orderly)
include h

lemma live_of_ne_gone (hb : f.block b ≠ Block.gone) : f.LiveBlock b := by
  by_contra hgone
  exact hb (h.gone b (by simpa using hgone))

lemma live_block_of_insn (hi : f.LiveInsn i) : (f.block (f.insn i).block).removed = false :=
  h.live_of_ne_gone fun hgone => by
    simpa [hgone, Block.gone] using (h.exact.insns_iff _ i).2 ⟨hi, rfl⟩

lemma live_block_of_phi (hp : f.LivePhi p) : (f.block (f.phi p).block).removed = false :=
  h.live_of_ne_gone fun hgone => by
    simpa [hgone, Block.gone] using (h.exact.phis_iff _ p).2 ⟨hp, rfl⟩

lemma live_of_handler {handler : Handler} (hmem : handler ∈ (f.block b).handlers) : f.LiveBlock b :=
  h.live_of_ne_gone fun hgone => by simp [hgone, Block.gone] at hmem

lemma mem_insnIds : i ∈ f.insnIds ↔ f.LiveInsn i := by
  rw [mem_insnIds_iff]
  constructor
  · rintro ⟨b, -, hi⟩
    exact ((h.exact.insns_iff b i).1 hi).1
  · exact fun hi => ⟨_, h.live_block_of_insn hi, (h.exact.insns_iff _ i).2 ⟨hi, rfl⟩⟩

lemma mem_phiIds : p ∈ f.phiIds ↔ f.LivePhi p := by
  rw [mem_phiIds_iff]
  constructor
  · rintro ⟨b, -, hp⟩
    exact ((h.exact.phis_iff b p).1 hp).1
  · exact fun hp => ⟨_, h.live_block_of_phi hp, (h.exact.phis_iff _ p).2 ⟨hp, rfl⟩⟩

end

end Orderly

/-! ## Blocks -/

def Terminated (f : Function) (b : BlockId) : Prop :=
  ∃ front last, (f.block b).insns = front ++ [last] ∧ (f.insn last).op.isTerminator = true ∧
    ∀ i ∈ front, (f.insn i).op.isTerminator = false

lemma eq_nil_of_not_mem {front before rest : List α} {i last : α}
    (h : front ++ [last] = before ++ i :: rest) (hi : i ∉ front) : rest = [] := by
  rcases eq_nil_or_concat rest with hnil | ⟨rest, j, rfl⟩
  · exact hnil
  · rw [concat_eq_append, ← cons_append, ← append_assoc] at h
    exact absurd (by simp [(append_inj' h rfl).1]) hi

lemma Terminated.eq_nil (h : f.Terminated b)
    {rest : List InsnId} (hlist : (f.block b).insns = done ++ i :: rest)
    (hi : (f.insn i).op.isTerminator) : rest = [] := by
  obtain ⟨front, last, hinsns, -, hfront⟩ := h
  refine eq_nil_of_not_mem (hinsns.symm.trans hlist) fun hmem => ?_
  exact absurd hi (by simp [hfront i hmem])

lemma normalSuccessors_of_last (hlist : (f.block b).insns = done ++ [i])
    (hi : (f.insn i).op.isTerminator) : f.normalSuccessors b = (f.insn i).op.targets := by
  have hterm : f.terminator? b = some i := by simp [terminator?, hlist, Option.filter, hi]
  rw [normalSuccessors, hterm]

section Blocks

variable (f : Function) (b : BlockId)

lemma entryViolations_eq_nil_iff : f.entryViolations = [] ↔
    (f.block f.entry).removed = false ∧ f.predecessors f.entry = [] := by
  unfold entryViolations isDead
  cases (f.block f.entry).removed <;> simp

lemma terminatorViolations_eq_nil_iff : f.terminatorViolations b = [] ↔ f.Terminated b := by
  unfold terminatorViolations Terminated
  rcases eq_nil_or_concat (f.block b).insns with hnil | ⟨front, last, hconcat⟩
  · simp [hnil]
  · rw [concat_eq_append] at hconcat
    rw [hconcat]
    simp only [getLast?_append, getLast?_singleton, Option.some_or, dropLast_concat]
    constructor
    · intro h
      split at h
      · rename_i hlast
        rw [map_eq_nil_iff, filter_eq_nil_iff] at h
        exact ⟨front, last, rfl, hlast, fun i hi => by simpa using h i hi⟩
      · exact absurd h (by simp)
    · rintro ⟨front', last', heq, hlast, hfront⟩
      obtain ⟨rfl, hl⟩ := append_inj' heq rfl
      obtain rfl := singleton_inj.1 hl
      rw [if_pos hlast, map_eq_nil_iff, filter_eq_nil_iff]
      exact fun i hi => by simp [hfront i hi]

lemma targetViolations_eq_nil_iff : f.targetViolations b = [] ↔
    ∀ c ∈ f.successors b, f.LiveBlock c := by
  simp [targetViolations, isDead, filter_eq_nil_iff]

lemma memberViolations_eq_nil_iff : f.memberViolations b = [] ↔
    ∀ i ∈ (f.block b).insns, f.LiveInsn i ∧ (f.insn i).block = b := by
  simp [memberViolations, filter_eq_nil_iff]

lemma phiViolations_eq_nil_iff (p : PhiId) : f.phiViolations b p = [] ↔
    (f.phi p).removed = false ∧ (f.phi p).block = b ∧
      (f.phi p).operands.length = (f.predecessors b).length := by
  unfold phiViolations
  by_cases hforeign : ((f.phi p).removed || decide ((f.phi p).block ≠ b)) = true
  · rw [if_pos hforeign]
    simp only [Bool.or_eq_true, decide_eq_true_eq] at hforeign
    simp only [cons_ne_self, false_iff]
    rintro ⟨hlive, hblock, -⟩
    rcases hforeign with hremoved | hne
    · exact absurd hremoved (by simp [hlive])
    · exact hne hblock
  · rw [if_neg hforeign]
    simp only [Bool.or_eq_true, decide_eq_true_eq, not_or, Bool.not_eq_true, not_not] at hforeign
    simp [hforeign]

theorem blockViolations_eq_nil_iff : f.blockViolations b = [] ↔
    f.Terminated b ∧ (∀ c ∈ f.successors b, f.LiveBlock c) ∧
      (∀ i ∈ (f.block b).insns, f.LiveInsn i ∧ (f.insn i).block = b) ∧
        ∀ p ∈ (f.block b).phis, f.LivePhi p ∧ (f.phi p).block = b ∧
          (f.phi p).operands.length = (f.predecessors b).length := by
  simp only [blockViolations, append_eq_nil_iff, terminatorViolations_eq_nil_iff,
    targetViolations_eq_nil_iff, memberViolations_eq_nil_iff, flatMap_eq_nil_iff,
    phiViolations_eq_nil_iff, and_assoc]

end Blocks

/-! ## Definitions and users -/

namespace Exact

lemma operandViolations_eq_nil_iff (h : f.Exact) (user : Site)
    (hr : f.Reads v user) : f.operandViolations user v = [] ↔ ∃ s, f.Defines v s := by
  simp only [← h.definition_iff]
  unfold operandViolations
  cases hdef : (f.value v).definition with
  | none => simp
  | some s => simp [(h.users_iff v user).2 hr]

lemma insnViolations_eq_nil_iff (h : f.Exact) (i : InsnId) : f.insnViolations i = [] ↔
    ∀ v ∈ (f.insn i).op.operands, ∃ s, f.Defines v s := by
  have hdest : (f.insn i).dest.toList.flatMap (f.definitionViolations · (.insn i)) = [] := by
    refine flatMap_eq_nil_iff.2 fun v hv => ?_
    rw [Option.mem_toList] at hv
    simp [definitionViolations, (h.definition_iff v (.insn i)).2 hv]
  rw [insnViolations, hdest, nil_append, flatMap_eq_nil_iff]
  exact forall₂_congr fun v hv => h.operandViolations_eq_nil_iff (.insn i) hv

lemma phiUseViolations_eq_nil_iff (h : f.Exact) (hp : f.LivePhi p) :
    f.phiUseViolations p = [] ↔ ∀ v ∈ (f.phi p).operands, ∃ s, f.Defines v s := by
  have hdef := (h.definition_iff (f.phi p).value (.phi p)).2 ⟨hp, rfl⟩
  rw [phiUseViolations, definitionViolations, if_pos hdef, nil_append, flatMap_eq_nil_iff]
  exact forall₂_congr fun v hv => h.operandViolations_eq_nil_iff (.phi p) hv

lemma repetitionViolations_eq (h : f.Exact) : f.repetitionViolations = [] := by
  simp only [repetitionViolations, map_eq_nil_iff, filter_eq_nil_iff, decide_eq_true_eq, Nat.not_lt]
  exact fun v _ => nodup_iff_count_le_one.1 h.nodup_definedValues v

lemma staleViolations_eq (h : f.Exact) (v : ValueId) : f.staleViolations v = [] := by
  simp only [staleViolations, map_eq_nil_iff, filter_eq_nil_iff]
  intro s hs
  rw [h.users_iff] at hs
  cases s with
  | insn i => simp [readsAt, h.live_of_reads_insn hs, Op.uses, show v ∈ _ from hs]
  | phi p => simp [readsAt, h.live_of_reads_phi hs, show v ∈ _ from hs]

theorem useViolations_eq_nil_iff (h : f.Exact) : f.useViolations = [] ↔
    (∀ i ∈ f.insnIds, ∀ v ∈ (f.insn i).op.operands, ∃ s, f.Defines v s) ∧
      ∀ p ∈ f.phiIds, ∀ v ∈ (f.phi p).operands, ∃ s, f.Defines v s := by
  have hstale : f.valueIds.flatMap f.staleViolations = [] :=
    flatMap_eq_nil_iff.2 fun v _ => h.staleViolations_eq v
  rw [useViolations, hstale, h.repetitionViolations_eq, append_nil, append_nil,
    append_eq_nil_iff, flatMap_eq_nil_iff, flatMap_eq_nil_iff]
  exact and_congr (forall₂_congr fun i _ => h.insnViolations_eq_nil_iff i)
    (forall₂_congr fun p hp => h.phiUseViolations_eq_nil_iff (h.live_of_mem_phiIds hp))

end Exact

/-! ## Edges -/

/-- The number of edges from a block; a removed block has none. -/
def edgeCount (f : Function) (p b : BlockId) : Nat :=
  if (f.block p).removed then 0 else (f.successors p).count b

lemma count_incoming (f : Function) (b p : BlockId) : (f.incoming b).count p = f.edgeCount p b := by
  have hcount : ∀ blocks : List BlockId, blocks.Nodup →
      (blocks.flatMap fun q => replicate ((f.successors q).count b) q).count p =
        if p ∈ blocks then (f.successors p).count b else 0 := by
    intro blocks hnodup
    induction blocks with
    | nil => simp
    | cons q rest ih =>
      obtain ⟨hq, hrest⟩ := nodup_cons.1 hnodup
      rw [flatMap_cons, count_append, ih hrest, count_replicate]
      by_cases hpq : q = p
      · subst hpq
        simp [hq]
      · simp [hpq, Ne.symm hpq]
  rw [incoming, hcount _ f.nodup_blockIds, edgeCount]
  cases hp : (f.block p).removed <;> simp [mem_blockIds, hp]

lemma pairwise_incoming (f : Function) (b : BlockId) :
    (f.incoming b).Pairwise fun a c => a.index ≤ c.index := by
  have hsorted : ∀ blocks : List BlockId, (blocks.Pairwise fun a c => a.index < c.index) →
      (blocks.flatMap fun q => replicate ((f.successors q).count b) q).Pairwise
        fun a c => a.index ≤ c.index := by
    intro blocks hblocks
    induction blocks with
    | nil => exact List.Pairwise.nil
    | cons q rest ih =>
      obtain ⟨hq, hrest⟩ := pairwise_cons.1 hblocks
      refine pairwise_append.2 ⟨pairwise_replicate.2 (by simp), ih hrest, ?_⟩
      intro a ha c hc
      rw [eq_of_mem_replicate ha]
      obtain ⟨r, hr, hc⟩ := mem_flatMap.1 hc
      rw [eq_of_mem_replicate hc]
      exact (hq r hr).le
  exact hsorted _ f.pairwise_blockIds

lemma sortBy_predecessors_eq_iff (f : Function) (b : BlockId) :
    sortBy compare (f.predecessors b) = f.incoming b ↔
      ∀ p, (f.predecessors b).count p = f.edgeCount p b := by
  have hsorted := perm_sortBy compare (f.predecessors b)
  constructor
  · intro heq p
    rw [← hsorted.count_eq, heq, count_incoming]
  · intro hcount
    have hperm : (sortBy compare (f.predecessors b)).Perm (f.incoming b) :=
      hsorted.trans (perm_iff_count.2 fun p => by rw [hcount, count_incoming])
    exact hperm.eq_of_pairwise (fun a c _ _ hac hca => BlockId.eq_iff.2 (Nat.le_antisymm hac hca))
      (pairwise_sortBy BlockId.compare_eq _) (pairwise_incoming f b)

theorem edgeViolations_eq_nil_iff (f : Function) : f.edgeViolations = [] ↔
    ∀ b, f.LiveBlock b → ∀ p, (f.predecessors b).count p = f.edgeCount p b := by
  simp only [edgeViolations, flatMap_eq_nil_iff, mem_blockIds]
  refine forall₂_congr fun b _ => ?_
  rw [← sortBy_predecessors_eq_iff]
  simp

/-! ## Routes -/

/-- A way from the entry to a block along the edges of a function, the block first. -/
inductive Route (f : Function) : List BlockId → Prop
  | start : Route f [f.entry]
  | step {p b : BlockId} {t : List BlockId} (walked : Route f (p :: t))
      (edge : b ∈ f.successors p) : Route f (b :: p :: t)

def DefinedIn (f : Function) (v : ValueId) (b : BlockId) : Prop :=
  (∃ i ∈ (f.block b).insns, (f.insn i).dest = some v) ∨ ∃ p ∈ (f.block b).phis, (f.phi p).value = v

/-- Every route to the end of a block has come by the definition of a value. -/
def PrecedesEnd (f : Function) (v : ValueId) (b : BlockId) : Prop :=
  ∀ t, f.Route (b :: t) → ∃ c ∈ b :: t, f.DefinedIn v c

/-- Every route to the place behind some instructions of a block has come by the definition of a
value: it is one of these instructions, a phi of the block, or in an earlier block. -/
def PrecedesUse (f : Function) (v : ValueId) (b : BlockId) (before : List InsnId) : Prop :=
  ∀ t, f.Route (b :: t) → (∃ i ∈ before, (f.insn i).dest = some v) ∨
    (∃ p ∈ (f.block b).phis, (f.phi p).value = v) ∨ ∃ c ∈ t, f.DefinedIn v c

/-- The blocks and edges of a function are in order, and its bookkeeping is exact. -/
structure Framed (f : Function) : Prop where
  exact : f.Exact
  entry_live : (f.block f.entry).removed = false
  entry_preds : f.predecessors f.entry = []
  terminated : ∀ b, (f.block b).removed = false → f.Terminated b
  targets : ∀ b, (f.block b).removed = false → ∀ c ∈ f.successors b, (f.block c).removed = false
  arity : ∀ b, (f.block b).removed = false → ∀ p ∈ (f.block b).phis,
    (f.phi p).operands.length = (f.predecessors b).length
  edges : ∀ b, (f.block b).removed = false → ∀ p, (f.predecessors b).count p = f.edgeCount p b

namespace Exact

lemma definedIn_iff (h : f.Exact) : f.DefinedIn v b ↔ f.definingBlock? v = some b := by
  rw [definingBlock?_eq, Option.map_eq_some_iff]
  constructor
  · rintro (⟨i, hi, hd⟩ | ⟨p, hp, rfl⟩)
    · exact ⟨.insn i, (h.definition_iff v (.insn i)).2 hd, ((h.insns_iff b i).1 hi).2⟩
    · obtain ⟨hlive, hblock⟩ := (h.phis_iff b p).1 hp
      exact ⟨.phi p, (h.definition_iff _ (.phi p)).2 ⟨hlive, rfl⟩, hblock⟩
  · rintro ⟨i | p, hdef, hblock⟩
    · have hd : (f.insn i).dest = some v := (h.definition_iff v (.insn i)).1 hdef
      exact .inl ⟨i, (h.insns_iff b i).2 ⟨h.live_of_dest hd, hblock⟩, hd⟩
    · obtain ⟨hlive, hv⟩ := (h.definition_iff v (.phi p)).1 hdef
      exact .inr ⟨p, (h.phis_iff b p).2 ⟨hlive, hblock⟩, hv⟩

lemma phi_mem_iff (h : f.Exact) :
    (∃ p ∈ (f.block b).phis, (f.phi p).value = v) ↔ f.IsPhiOf v b := by
  constructor
  · rintro ⟨p, hp, rfl⟩
    obtain ⟨hlive, hblock⟩ := (h.phis_iff b p).1 hp
    exact ⟨p, (h.definition_iff _ (.phi p)).2 ⟨hlive, rfl⟩, hblock⟩
  · rintro ⟨p, hdef, hblock⟩
    obtain ⟨hlive, hv⟩ := (h.definition_iff v (.phi p)).1 hdef
    exact ⟨p, (h.phis_iff b p).2 ⟨hlive, hblock⟩, hv⟩

lemma positionInBlock?_eq (h : f.Exact) (hlist : (f.block b).insns = before ++ i :: after) :
    f.positionInBlock? i = some before.length := by
  obtain ⟨hlive, hblock⟩ := h.of_split hlist
  rw [positionInBlock?, hlive, hblock, if_neg Bool.false_ne_true, hlist, idxOf?_eq_some_iff]
  refine ⟨by simp, by simp, ?_⟩
  intro j hj heq
  rw [getElem_append_left hj] at heq
  exact (h.not_mem_of_split hlist).1 (heq ▸ getElem_mem hj)

end Exact

namespace Route

lemma route_to {l : List BlockId} (h : f.Route l) {c : BlockId} (hc : c ∈ l) :
    ∃ t, f.Route (c :: t) ∧ (c :: t) <:+ l := by
  induction h with
  | start =>
    rw [mem_singleton] at hc
    subst hc
    exact ⟨[], .start, suffix_refl _⟩
  | step walked edge ih =>
    rcases mem_cons.1 hc with rfl | hc
    · exact ⟨_, .step walked edge, suffix_refl _⟩
    · obtain ⟨t, ht, hsuffix⟩ := ih hc
      exact ⟨t, ht, hsuffix.trans (suffix_cons _ _)⟩

lemma once (h : f.Route (b :: t)) : ∃ t', f.Route (b :: t') ∧ b ∉ t' := by
  induction hn : t.length using Nat.strong_induction_on generalizing t with
  | _ n ih =>
    by_cases hb : b ∈ t
    · cases h with
      | start => cases hb
      | step walked edge =>
        obtain ⟨t', ht', hsuffix⟩ := walked.route_to hb
        have hlen := hsuffix.length_le
        simp only [length_cons] at hlen hn
        exact ih t'.length (by omega) ht' rfl
    · exact ⟨t, h, hb⟩

lemma of_path {b : Nat} (hpath : f.graph.Path a nodes b) (ht : f.Route (⟨a⟩ :: t)) :
    f.Route ((nodes.reverse.map BlockId.mk) ++ t) := by
  induction hpath generalizing t with
  | single _ => simpa using ht
  | @cons a c _ _ hedge _ ih =>
    have hsucc : (⟨c⟩ : BlockId) ∈ f.successors ⟨a⟩ := by
      have hmem := hedge.2.2
      simp only [graph] at hmem
      split at hmem
      · simp at hmem
      · obtain ⟨d, hd, hdc⟩ := mem_map.1 hmem
        have hd' : d = ⟨c⟩ := BlockId.eq_iff.2 hdc
        exact hd' ▸ hd
    simpa using ih (.step ht hsucc)

lemma reverse_path {g : Graph} {b : Nat} (h : g.Path a nodes b) :
    ∃ rest, nodes.reverse = b :: rest := by
  induction h with
  | single _ => exact ⟨[], rfl⟩
  | @cons a _ _ _ _ _ ih =>
    obtain ⟨rest, hrest⟩ := ih
    exact ⟨rest ++ [a], by simp [hrest]⟩

lemma of_entry_path (hpath : f.graph.Path f.entry.index nodes b.index) :
    ∃ t, f.Route (b :: t) ∧ ∀ c ∈ b :: t, c.index ∈ nodes := by
  have hroute := of_path hpath (t := []) .start
  obtain ⟨rest, hrest⟩ := reverse_path hpath
  refine ⟨rest.map BlockId.mk, by simpa [hrest] using hroute, ?_⟩
  intro c hc
  rw [← mem_reverse, hrest]
  rcases mem_cons.1 hc with rfl | hc
  · exact mem_cons_self
  · obtain ⟨n, hn, rfl⟩ := mem_map.1 hc
    exact mem_cons_of_mem _ hn

end Route

/-! ## Dominance -/

namespace Framed

section

variable (h : f.Framed)
include h

lemma live_of_route (hroute : f.Route (b :: t)) : f.LiveBlock b := by
  generalize hl : b :: t = l at hroute
  induction hroute generalizing b t with
  | start =>
    obtain ⟨rfl, -⟩ := cons.inj hl
    exact h.entry_live
  | step walked edge ih =>
    obtain ⟨rfl, -⟩ := cons.inj hl
    exact h.targets _ (ih rfl) _ edge

lemma path_of_route (hroute : f.Route (b :: t)) :
    f.graph.Path f.entry.index ((b :: t).reverse.map BlockId.index) b.index := by
  have hsnoc : ∀ {a c d : Nat} {nodes : List Nat}, f.graph.Path a nodes c → f.graph.Edge c d →
      f.graph.Path a (nodes ++ [d]) d := by
    intro a c d nodes hpath hedge
    induction hpath with
    | single _ => exact .cons hedge (.single hedge.2.1)
    | cons hfirst _ ih => exact .cons hfirst (ih hedge)
  generalize hl : b :: t = l at hroute
  induction hroute generalizing b t with
  | start =>
    obtain ⟨rfl, -⟩ := cons.inj hl
    exact .single (f.lt_blocks_of_live h.entry_live)
  | @step p _ _ walked edge ih =>
    obtain ⟨rfl, -⟩ := cons.inj hl
    have hp := h.live_of_route walked
    have hedge : f.graph.Edge p.index b.index := by
      refine ⟨f.lt_blocks_of_live hp, f.lt_blocks_of_live (h.targets p hp _ edge), ?_⟩
      simp only [graph, hp, Bool.false_eq_true, if_false]
      exact mem_map_of_mem edge
    simpa using hsnoc (ih rfl) hedge

lemma reaches_iff : f.graph.Reaches f.entry.index b.index ↔ ∃ t, f.Route (b :: t) := by
  constructor
  · rintro ⟨nodes, hpath⟩
    obtain ⟨t, ht, -⟩ := Route.of_entry_path hpath
    exact ⟨t, ht⟩
  · rintro ⟨t, ht⟩
    exact ⟨_, h.path_of_route ht⟩

lemma dominates_iff_routes {a : BlockId} (hreach : ∃ t, f.Route (b :: t)) :
    (f.graph.dominators f.entry.index).dominates a.index b.index ↔
      ∀ t, f.Route (b :: t) → a ∈ b :: t := by
  rw [Graph.dominates_iff]
  constructor
  · rintro ⟨-, hall⟩ t ht
    obtain ⟨c, hc, hca⟩ := mem_map.1 (hall _ (h.path_of_route ht))
    rw [BlockId.eq_iff.2 hca] at hc
    exact mem_reverse.1 hc
  · intro hall
    refine ⟨h.reaches_iff.2 hreach, fun nodes hpath => ?_⟩
    obtain ⟨t, ht, hsub⟩ := Route.of_entry_path hpath
    exact hsub a (hall t ht)

lemma isAvailable_end_iff (hreach : ∃ t, f.Route (b :: t)) :
    f.isAvailable (f.graph.dominators f.entry.index) v b none ↔ f.PrecedesEnd v b := by
  -- whatever defines the value, its block is `b` or dominates it
  have hsite : ∀ s, (f.value v).definition = some s →
      (f.isAvailable (f.graph.dominators f.entry.index) v b none ↔
        ∀ t, f.Route (b :: t) → f.siteBlock s ∈ b :: t) := by
    intro s hs
    rw [← h.dominates_iff_routes hreach]
    cases s with
    | insn i =>
      by_cases hb : (f.insn i).block = b
      · simp [isAvailable, hs, siteBlock, hb, h.dominates_iff_routes hreach]
      · simp [isAvailable, hs, siteBlock, hb]
    | phi p =>
      by_cases hb : (f.phi p).block = b
      · simp [isAvailable, hs, siteBlock, hb, h.dominates_iff_routes hreach]
      · simp [isAvailable, hs, siteBlock, hb]
  simp only [PrecedesEnd, h.exact.definedIn_iff, definingBlock?_eq]
  cases hdef : (f.value v).definition with
  | none =>
    obtain ⟨t, ht⟩ := hreach
    simp only [isAvailable, hdef, Bool.false_eq_true, Option.map_none, reduceCtorEq, and_false,
      exists_false, imp_false, false_iff, not_forall, not_not]
    exact ⟨t, ht⟩
  | some s =>
    rw [hsite s hdef]
    simp

lemma isAvailable_before_iff (hlist : (f.block b).insns = before ++ i :: after)
    (hreach : ∃ t, f.Route (b :: t)) :
    f.isAvailable (f.graph.dominators f.entry.index) v b (some before.length) ↔
      f.PrecedesUse v b before := by
  have hend := h.isAvailable_end_iff (v := v) hreach
  simp only [PrecedesEnd, PrecedesUse, h.exact.definedIn_iff, h.exact.phi_mem_iff] at hend ⊢
  by_cases hhere : ∃ j, (f.value v).definition = some (.insn j) ∧ (f.insn j).block = b
  · -- an instruction of the block itself: its place decides
    obtain ⟨j, hdef, hblock⟩ := hhere
    have hd : (f.insn j).dest = some v := (h.exact.definition_iff v (.insn j)).1 hdef
    have hmem := (h.exact.insns_iff b j).2 ⟨h.exact.live_of_dest hd, hblock⟩
    obtain ⟨front, back, hsplit⟩ := append_of_mem hmem
    have havail : f.isAvailable (f.graph.dominators f.entry.index) v b (some before.length) ↔
        j ∈ before := by
      have hplace := h.exact.positionInBlock?_eq hsplit
      simp only [isAvailable, hdef, hblock, if_true, hplace, decide_eq_true_eq]
      constructor
      · intro hlt
        have hprefix : front ++ [j] <+: before := by
          have hfront : front ++ [j] <+: (f.block b).insns := ⟨back, by simp [hsplit]⟩
          have hbefore : before <+: (f.block b).insns := ⟨i :: after, hlist.symm⟩
          exact prefix_of_prefix_length_le hfront hbefore (by simpa using hlt)
        exact hprefix.subset (by simp)
      · intro hj
        obtain ⟨front', back', rfl⟩ := append_of_mem hj
        have hplace' := h.exact.positionInBlock?_eq (b := b) (i := j)
          (show (f.block b).insns = front' ++ j :: (back' ++ i :: after) by simp [hlist])
        rw [hplace] at hplace'
        simp [Option.some.inj hplace']
    rw [havail]
    constructor
    · exact fun hj t _ => .inl ⟨j, hj, hd⟩
    · intro hall
      obtain ⟨t, ht⟩ := hreach
      -- on a route that comes by the block only once the definition is not behind
      obtain ⟨t, ht, hnot⟩ := ht.once
      rcases hall t ht with ⟨k, hk, hdk⟩ | ⟨p, hp, -⟩ | ⟨c, hc, hdc⟩
      · exact h.exact.insn_unique hdk hd ▸ hk
      · rw [hdef] at hp
        simp at hp
      · rw [definingBlock?_eq, hdef, Option.map_some, siteBlock, hblock] at hdc
        exact absurd (Option.some.inj hdc ▸ hc) hnot
  · -- otherwise the place within the block does not matter
    have hsame : f.isAvailable (f.graph.dominators f.entry.index) v b (some before.length) =
        f.isAvailable (f.graph.dominators f.entry.index) v b none := by
      unfold isAvailable
      cases hdef : (f.value v).definition with
      | none => rfl
      | some s =>
        cases s with
        | phi p => rfl
        | insn j =>
          have hblock : (f.insn j).block ≠ b := fun hb => hhere ⟨j, hdef, hb⟩
          simp [hblock]
    rw [hsame, hend]
    refine forall₂_congr fun t ht => ?_
    constructor
    · rintro ⟨c, hc, hdc⟩
      rcases mem_cons.1 hc with rfl | hc
      · rw [definingBlock?_eq, Option.map_eq_some_iff] at hdc
        obtain ⟨j | p, hdef, hblock⟩ := hdc
        · exact absurd ⟨j, hdef, hblock⟩ hhere
        · exact .inr (.inl ⟨p, hdef, hblock⟩)
      · exact .inr (.inr ⟨c, hc, hdc⟩)
    · rintro (⟨j, hj, hd⟩ | hphi | ⟨c, hc, hdc⟩)
      · refine absurd ⟨j, (h.exact.definition_iff v (.insn j)).2 hd, ?_⟩ hhere
        exact ((h.exact.insns_iff b j).1 (by simp [hlist, hj])).2
      · exact ⟨b, mem_cons_self, hphi.definingBlock?⟩
      · exact ⟨c, mem_cons_of_mem b hc, hdc⟩

lemma insnDominance_eq_nil_iff (hlist : (f.block b).insns = before ++ i :: after) :
    f.insnDominance (f.graph.dominators f.entry.index) i = [] ↔
      ∀ v ∈ (f.insn i).op.operands, f.PrecedesUse v b before := by
  obtain ⟨-, hblock⟩ := h.exact.of_split hlist
  simp only [insnDominance, hblock, h.exact.positionInBlock?_eq hlist, Option.getD_some]
  split
  · rename_i hreach
    rw [Graph.isReachable_iff, h.reaches_iff] at hreach
    rw [map_eq_nil_iff, filter_eq_nil_iff]
    refine forall₂_congr fun v _ => ?_
    rw [← h.isAvailable_before_iff hlist hreach]
    simp
  · rename_i hreach
    rw [Graph.isReachable_iff, h.reaches_iff] at hreach
    exact iff_of_true rfl fun v _ t ht => absurd ⟨t, ht⟩ hreach

lemma phiDominance_eq_nil_iff (hb : f.LiveBlock b) (hp : p ∈ (f.block b).phis) :
    f.phiDominance (f.graph.dominators f.entry.index) p = [] ↔
      ∀ (j : Nat) (v : ValueId) (pred : BlockId), (f.phi p).operands[j]? = some v →
        (f.predecessors b)[j]? = some pred → f.PrecedesEnd v pred := by
  obtain ⟨-, hblock⟩ := (h.exact.phis_iff b p).1 hp
  simp only [phiDominance, hblock]
  split
  · rw [map_eq_nil_iff, filter_eq_nil_iff]
    constructor
    · intro hall j v pred hv hpred t ht
      have hmem : (v, pred) ∈ (f.phi p).operands.zip (f.predecessors b) :=
        mem_of_getElem? (getElem?_zip_eq_some.2 ⟨hv, hpred⟩)
      have hreach := h.reaches_iff.2 ⟨t, ht⟩
      have havail := hall _ hmem
      simp only [(Graph.isReachable_iff _ _ _).2 hreach, Bool.true_and, Bool.not_eq_true',
        Bool.not_eq_false] at havail
      exact (h.isAvailable_end_iff ⟨t, ht⟩).1 havail t ht
    · rintro hall ⟨v, pred⟩ hmem
      obtain ⟨j, hj⟩ := getElem?_of_mem hmem
      obtain ⟨hv, hpred⟩ := getElem?_zip_eq_some.1 hj
      simp only [Bool.and_eq_true, Bool.not_eq_true', not_and, Bool.not_eq_false]
      intro hreach
      rw [Graph.isReachable_iff, h.reaches_iff] at hreach
      exact (h.isAvailable_end_iff hreach).2 (hall j v pred hv hpred)
  · rename_i hreach
    rw [Graph.isReachable_iff, h.reaches_iff] at hreach
    refine iff_of_true rfl fun j v pred _ hpred t ht => ?_
    -- a predecessor of a block that no route leads to is not reached either
    have hedge : b ∈ f.successors pred := by
      have hcount := h.edges b hb pred
      rw [edgeCount, h.live_of_route ht, if_neg Bool.false_ne_true] at hcount
      rw [← count_pos_iff, ← hcount, count_pos_iff]
      exact mem_of_getElem? hpred
    exact absurd ⟨_, .step ht hedge⟩ hreach

theorem dominanceViolations_eq_nil_iff : f.dominanceViolations = [] ↔
    (∀ b, f.LiveBlock b → ∀ before i after,
      (f.block b).insns = before ++ i :: after → ∀ v ∈ (f.insn i).op.operands,
        f.PrecedesUse v b before) ∧
    ∀ b, f.LiveBlock b → ∀ p ∈ (f.block b).phis,
      ∀ (j : Nat) (v : ValueId) (pred : BlockId), (f.phi p).operands[j]? = some v →
        (f.predecessors b)[j]? = some pred → f.PrecedesEnd v pred := by
  simp only [dominanceViolations, append_eq_nil_iff, flatMap_eq_nil_iff]
  refine and_congr ⟨?_, ?_⟩ ⟨?_, ?_⟩
  · intro hall b hb before i after hlist
    refine (h.insnDominance_eq_nil_iff hlist).1 (hall i ?_)
    exact (f.mem_insnIds_iff i).2 ⟨b, hb, by simp [hlist]⟩
  · intro hall i hi
    obtain ⟨b, hb, hmem⟩ := (f.mem_insnIds_iff i).1 hi
    obtain ⟨before, after, hlist⟩ := append_of_mem hmem
    exact (h.insnDominance_eq_nil_iff hlist).2 (hall b hb before i after hlist)
  · intro hall b hb p hp
    exact (h.phiDominance_eq_nil_iff hb hp).1 (hall p ((f.mem_phiIds_iff p).2 ⟨b, hb, hp⟩))
  · intro hall p hp
    obtain ⟨b, hb, hmem⟩ := (f.mem_phiIds_iff p).1 hp
    exact (h.phiDominance_eq_nil_iff hb hmem).2 (hall b hb p hmem)

end

end Framed

/-! ## The verdict -/

/-- Every operand has a definition, and every route to a use comes by it first. An operand of a phi
is used at the end of the matching predecessor. -/
structure Preceded (f : Function) : Prop where
  insn_defined : ∀ i ∈ f.insnIds, ∀ v ∈ (f.insn i).op.operands, ∃ s, f.Defines v s
  phi_defined : ∀ p ∈ f.phiIds, ∀ v ∈ (f.phi p).operands, ∃ s, f.Defines v s
  insn_uses : ∀ b, (f.block b).removed = false → ∀ before i after,
    (f.block b).insns = before ++ i :: after → ∀ v ∈ (f.insn i).op.operands,
      f.PrecedesUse v b before
  phi_uses : ∀ b, (f.block b).removed = false → ∀ p ∈ (f.block b).phis,
    ∀ (j : Nat) (v : ValueId) (pred : BlockId), (f.phi p).operands[j]? = some v →
      (f.predecessors b)[j]? = some pred → f.PrecedesEnd v pred

lemma verify_eq_ok_iff_rules (f : Function) : verify f = .ok () ↔
    f.entryViolations = [] ∧ (∀ b, f.LiveBlock b → f.blockViolations b = []) ∧
      f.useViolations = [] ∧ f.edgeViolations = [] ∧ f.dominanceViolations = [] := by
  simp only [verify_eq_ok_iff, violations, append_eq_nil_iff, flatMap_eq_nil_iff,
    mem_blockIds, and_assoc]

lemma Exact.framed_of_verify (h : f.Exact) (hverify : verify f = .ok ()) : f.Framed := by
  obtain ⟨hentry, hblocks, -, hedges, -⟩ := f.verify_eq_ok_iff_rules.1 hverify
  obtain ⟨hlive, hpreds⟩ := f.entryViolations_eq_nil_iff.1 hentry
  have hblock := fun b hb => (f.blockViolations_eq_nil_iff b).1 (hblocks b hb)
  exact ⟨h, hlive, hpreds, fun b hb => (hblock b hb).1, fun b hb => (hblock b hb).2.1,
    fun b hb p hp => ((hblock b hb).2.2.2 p hp).2.2, f.edgeViolations_eq_nil_iff.1 hedges⟩

lemma Framed.blockViolations_eq (h : f.Framed) (hb : f.LiveBlock b) : f.blockViolations b = [] := by
  refine (f.blockViolations_eq_nil_iff b).2 ⟨h.terminated b hb, h.targets b hb, ?_, ?_⟩
  · exact fun i hi => (h.exact.insns_iff b i).1 hi
  · intro p hp
    obtain ⟨hlive, hblock⟩ := (h.exact.phis_iff b p).1 hp
    exact ⟨hlive, hblock, h.arity b hb p hp⟩

lemma Framed.verify_iff_rest (h : f.Framed) :
    verify f = .ok () ↔ f.useViolations = [] ∧ f.dominanceViolations = [] := by
  rw [verify_eq_ok_iff_rules, f.entryViolations_eq_nil_iff, f.edgeViolations_eq_nil_iff]
  constructor
  · exact fun hall => ⟨hall.2.2.1, hall.2.2.2.2⟩
  · exact fun hrest => ⟨⟨h.entry_live, h.entry_preds⟩, fun b hb => h.blockViolations_eq hb,
      hrest.1, h.edges, hrest.2⟩

lemma Framed.preceded_iff (h : f.Framed) :
    f.Preceded ↔ f.useViolations = [] ∧ f.dominanceViolations = [] := by
  rw [h.exact.useViolations_eq_nil_iff, h.dominanceViolations_eq_nil_iff]
  constructor
  · exact fun hall => ⟨⟨hall.insn_defined, hall.phi_defined⟩, hall.insn_uses, hall.phi_uses⟩
  · exact fun hall => ⟨hall.1.1, hall.1.2, hall.2.1, hall.2.2⟩

end Ssa.Function

end Dissolve
