import Dissolve.Proofs.Ssa.BlockEdits

/-!
# Proofs.Ssa.Unreachable — removing blocks with everything in them

Blocks that no path from the entry reaches are first cut off from the others (`Function.Pruned`) and then
removed (`Function.Buried`). While the places of a block are removed one by one its list still names them,
so the closed form is proved for the whole block.

Where every recorded predecessor has the edge it stands for, this leaves the reached blocks as they were,
without the entries of unreached predecessors and the operands that belong to them
(`Function.Trimmed`).
-/

namespace Dissolve.Ssa.Function

open List

variable {h : Function} {b : BlockId} {v : ValueId} {i : InsnId} {p : PhiId} {s : Site} {n : Nat}
  {places : List Site}

/-! ## Taking out edges -/

section Prune

/-- The entries of a list whose partners pass a test; entries without a partner stay. -/
def keepBy {α β : Type} (p : α → Bool) : List α → List β → List β
  | _, [] => []
  | [], y :: ys => y :: ys
  | x :: xs, y :: ys => if p x then y :: keepBy p xs ys else keepBy p xs ys

section KeepBy

variable {α β : Type} {p q : α → Bool} {xs : List α} {ys : List β} {x : α}

@[simp] lemma keepBy_nil_right : keepBy p xs ([] : List β) = [] := by
  cases xs <;> rfl

lemma keepBy_eq_self (h : ∀ x ∈ xs, p x = true) : keepBy p xs ys = ys := by
  induction xs generalizing ys with
  | nil => cases ys <;> rfl
  | cons x xs ih =>
    cases ys with
    | nil => rfl
    | cons y ys =>
      rw [keepBy, if_pos (h x mem_cons_self), ih fun z hz => h z (mem_cons_of_mem x hz)]

lemma keepBy_congr (h : ∀ x ∈ xs, p x = q x) : keepBy p xs ys = keepBy q xs ys := by
  induction xs generalizing ys with
  | nil => cases ys <;> rfl
  | cons x xs ih =>
    cases ys with
    | nil => rfl
    | cons y ys =>
      rw [keepBy, keepBy, h x mem_cons_self, ih fun z hz => h z (mem_cons_of_mem x hz)]

lemma keepBy_keepBy : keepBy q (xs.filter p) (keepBy p xs ys) = keepBy (fun x => p x && q x) xs ys := by
  induction xs generalizing ys with
  | nil => cases ys <;> rfl
  | cons x xs ih =>
    cases ys with
    | nil => simp
    | cons y ys =>
      cases hp : p x
      · simp only [filter_cons, keepBy, hp, Bool.false_and, Bool.false_eq_true, if_false]
        exact ih
      · simp only [filter_cons, keepBy, hp, Bool.true_and, if_true]
        rw [ih]

lemma keepBy_eraseIdx (hx : xs[n]? = some x) (hp : p x = false) :
    keepBy p (xs.eraseIdx n) (ys.eraseIdx n) = keepBy p xs ys := by
  induction xs generalizing n ys with
  | nil => simp at hx
  | cons z xs ih =>
    cases ys with
    | nil => simp
    | cons y ys =>
      cases n with
      | zero =>
        obtain rfl := Option.some.inj hx
        simp [keepBy, hp]
      | succ n =>
        have hrest : keepBy p (xs.eraseIdx n) (ys.eraseIdx n) = keepBy p xs ys := ih (by simpa using hx)
        simp [keepBy, hrest]

lemma filter_eraseIdx (hx : xs[n]? = some x) (hp : p x = false) :
    (xs.eraseIdx n).filter p = xs.filter p := by
  induction xs generalizing n with
  | nil => simp at hx
  | cons z xs ih =>
    cases n with
    | zero =>
      obtain rfl := Option.some.inj hx
      simp [hp]
    | succ n => simp [filter_cons, ih (by simpa using hx)]

lemma length_keepBy (h : ys.length = xs.length) :
    (keepBy p xs ys).length = (xs.filter p).length := by
  induction xs generalizing ys with
  | nil => simp [eq_nil_of_length_eq_zero h]
  | cons x xs ih =>
    cases ys with
    | nil => simp at h
    | cons y ys =>
      have hrest : (keepBy p xs ys).length = (xs.filter p).length := ih (by simpa using h)
      cases hp : p x <;> simp [keepBy, hp, hrest]

end KeepBy

variable {f g : Function}

/-- Predecessors have lost the entries that fail a test, and phis the operands that belong to them. -/
structure Pruned (f : Function) (kept : BlockId → BlockId → Bool) (g : Function) : Prop where
  block : ∀ b, g.block b = { f.block b with preds := (f.block b).preds.filter (kept b) }
  size_blocks : g.blocks.size = f.blocks.size
  insns : g.insns = f.insns
  phi : ∀ p, g.phi p = { f.phi p with
    operands := keepBy (kept (f.phi p).block) (f.block (f.phi p).block).preds (f.phi p).operands }

namespace Pruned

variable {kept kept' : BlockId → BlockId → Bool}

lemma refl (h : ∀ b, ∀ p ∈ (f.block b).preds, kept b p = true) : f.Pruned kept f := by
  refine ⟨fun b => ?_, rfl, rfl, fun p => ?_⟩
  · rw [filter_eq_self.2 (h b)]
  · rw [keepBy_eq_self (h _)]

lemma trans (hfg : f.Pruned kept g) (hgh : g.Pruned kept' h) :
    f.Pruned (fun b p => kept b p && kept' b p) h := by
  refine ⟨fun b => ?_, hgh.size_blocks.trans hfg.size_blocks, hgh.insns.trans hfg.insns, fun p => ?_⟩
  · rw [hgh.block, hfg.block]
    simp only [filter_filter, Bool.and_comm]
  · rw [hgh.phi, hfg.phi]
    dsimp only
    rw [hfg.block]
    dsimp only
    rw [keepBy_keepBy]

lemma congr (h : f.Pruned kept g)
    (hkept : ∀ b, ∀ p ∈ (f.block b).preds, kept' b p = kept b p) : f.Pruned kept' g := by
  refine ⟨fun b => ?_, h.size_blocks, h.insns, fun p => ?_⟩
  · rw [h.block, filter_congr (hkept b)]
  · rw [h.phi, keepBy_congr (hkept _)]

lemma insn (h : f.Pruned kept g) (i : InsnId) : g.insn i = f.insn i := by
  rw [Function.insn, h.insns, ← Function.insn]

lemma successors (h : f.Pruned kept g) (b : BlockId) : g.successors b = f.successors b :=
  successors_congr (by rw [h.block]) (by rw [h.block]) (fun i => by rw [h.insn])
    fun i => by rw [h.insn]

end Pruned

lemma Exact.gone_insn (hf : f.Exact) (h : (f.insn i).removed = true) :
    (f.insn i).gone = f.insn i := by
  obtain ⟨hop, hdest⟩ := hf.insn_gone i h
  rw [Instruction.gone, ← hop, ← hdest, ← h]

lemma Exact.gone_phi (hf : f.Exact) (h : (f.phi p).removed = true) : (f.phi p).gone = f.phi p := by
  rw [Phi.gone, ← hf.phi_gone p h, ← h]

lemma Exact.dropPredecessor_spec (hf : f.Exact) (b : BlockId) (n : Nat) :
    (∀ c, (f.dropPredecessor b n).block c = if c = b then
        { f.block c with preds := (f.block c).preds.eraseIdx n } else f.block c) ∧
      (f.dropPredecessor b n).insns = f.insns ∧
      ∀ q, (f.dropPredecessor b n).phi q = if (f.phi q).block = b then
        { f.phi q with operands := (f.phi q).operands.eraseIdx n } else f.phi q := by
  have hfold : ∀ (ps : List PhiId) (g : Function), ps.Nodup →
      ∀ q, (ps.foldl (fun g p => g.dropOperand n p) g).phi q = if q ∈ ps then
        { g.phi q with operands := (g.phi q).operands.eraseIdx n } else g.phi q := by
    intro ps
    induction ps with
    | nil => exact fun g _ q => by simp
    | cons p ps ih =>
      intro g hnodup q
      obtain ⟨hp, hnodup⟩ := nodup_cons.1 hnodup
      rw [foldl_cons, ih (g.dropOperand n p) hnodup, phi_dropOperand]
      by_cases hq : q = p
      · subst hq
        simp [hp]
      · simp [hq]
  have hphis : ((f.modifyBlock b fun block =>
      { block with preds := block.preds.eraseIdx n }).block b).phis = (f.block b).phis := by
    rw [block_modifyBlock]
    split <;> rfl
  have hphi := hfold (f.block b).phis (f.modifyBlock b fun block =>
    { block with preds := block.preds.eraseIdx n }) (hf.phis_nodup b)
  have hblocks := fun g => foldl_keeps (fun g => blocks_dropOperand g n) (f.block b).phis g
  have hinsns := fun g => foldl_keeps (fun g => insns_dropOperand g n) (f.block b).phis g
  rw [dropPredecessor, hphis]
  refine ⟨fun c => ?_, hinsns _, fun q => ?_⟩
  · rw [block, hblocks, ← block, block_modifyBlock]
    by_cases hc : c = b
    · subst hc
      by_cases hlt : f.HasBlock c
      · simp [hlt]
      · simp [hlt, f.block_of_size_le (Nat.le_of_not_lt hlt), Block.gone]
    · simp [hc, Ne.symm hc]
  · rw [hphi, phi_modifyBlock]
    by_cases hlive : f.LivePhi q
    · simp [hf.phis_iff, hlive]
    · have hgone : (f.phi q).removed = true := by simpa using hlive
      have hmem : q ∉ (f.block b).phis := fun hmem => hlive ((hf.phis_iff b q).1 hmem).1
      rw [if_neg hmem, hf.phi_gone q hgone, eraseIdx_nil, ← hf.phi_gone q hgone]
      exact (ite_self _).symm

lemma Orderly.pruned_dropPredecessorEntries (hf : f.Orderly) (b pred : BlockId) {fuel : Nat}
    (hfuel : (f.predecessors b).length ≤ fuel) :
    f.Pruned (fun c p => !(decide (c = b) && decide (p = pred)))
      (f.dropPredecessorEntries b pred fuel) := by
  -- without such an entry everything stays
  have hnone : ∀ {g : Function}, pred ∉ g.predecessors b →
      g.Pruned (fun c p => !(decide (c = b) && decide (p = pred))) g := by
    intro g hmem
    refine Pruned.refl fun c p hp => ?_
    simp only [Bool.not_eq_true', Bool.and_eq_false_imp, decide_eq_true_eq, decide_eq_false_iff_not]
    rintro rfl rfl
    exact hmem hp
  induction fuel generalizing f with
  | zero =>
    have hnil : f.predecessors b = [] := eq_nil_of_length_eq_zero (Nat.le_zero.1 hfuel)
    exact hnone (by simp [hnil])
  | succ fuel ih =>
    rw [Function.dropPredecessorEntries]
    cases hidx : (f.block b).preds.idxOf? pred with
    | none => exact hnone (List.idxOf?_eq_none_iff.1 hidx)
    | some n =>
      have hget : (f.block b).preds[n]? = some pred := by
        obtain ⟨hlt, heq, -⟩ := List.findIdx?_eq_some_iff_getElem.1 hidx
        rw [List.getElem?_eq_getElem hlt, eq_of_beq heq]
      have hlt := (List.getElem?_eq_some_iff.1 hget).1
      obtain ⟨hblock, hinsns, hphi⟩ := hf.exact.dropPredecessor_spec b n
      have hrest := ih (hf.dropPredecessor b n) (by
        rw [predecessors, hblock, if_pos rfl]
        dsimp only
        rw [length_eraseIdx_of_lt hlt]
        have : (f.block b).preds.length ≤ fuel + 1 := hfuel
        omega)
      have hfail : (!(decide (b = b) && decide (pred = pred))) = false := by simp
      refine ⟨fun c => ?_, hrest.size_blocks.trans (size_blocks_dropPredecessor f b n),
        hrest.insns.trans hinsns, fun q => ?_⟩
      · rw [hrest.block, hblock]
        split
        · rename_i hc
          subst hc
          dsimp only
          rw [filter_eraseIdx hget hfail]
        · rfl
      · rw [hrest.phi, hphi]
        split
        · rename_i hq
          dsimp only
          rw [hblock, if_pos hq, hq]
          dsimp only
          rw [keepBy_eraseIdx hget hfail]
        · rename_i hq
          rw [hblock, if_neg hq]

lemma Orderly.pruned_detachBlock (hf : f.Orderly) (alive : BlockId → Bool) (b : BlockId) :
    f.Pruned (fun c p => !(decide (p = b) && alive c && decide (c ∈ f.successors b)))
      (f.detachBlock alive b) := by
  have hfold : ∀ (succs : List BlockId) {g : Function}, g.Orderly →
      g.Pruned (fun c p => !(decide (p = b) && decide (c ∈ succs))) (succs.foldl (fun g succ =>
        g.dropPredecessorEntries succ b (g.predecessors succ).length) g) := by
    intro succs
    induction succs with
    | nil => exact fun {g} _ => Pruned.refl fun c p _ => by simp
    | cons succ succs ih =>
      intro g hg
      have hstep := hg.pruned_dropPredecessorEntries succ b (Nat.le_refl (g.predecessors succ).length)
      refine (hstep.trans (ih (hg.dropPredecessorEntries succ b _))).congr fun c p _ => ?_
      by_cases hp : p = b <;> by_cases hc : c = succ <;> simp [hp, hc]
  refine (hfold _ hf).congr fun c p _ => ?_
  by_cases hp : p = b <;> simp [hp, Bool.and_comm, mem_filter]

end Prune

/-! ## Removing blocks -/

section Bury

variable {f g : Function}

def discardSite (f : Function) : Site → Function
  | .insn i => f.discardInsn i
  | .phi p => f.discardPhi p

/-- Places are emptied, and the values forget them; the blocks still list them. -/
structure Discarded (f : Function) (places : List Site) (g : Function) : Prop where
  blocks : g.blocks = f.blocks
  size_values : g.values.size = f.values.size
  insn : ∀ i, g.insn i = if .insn i ∈ places then (f.insn i).gone else f.insn i
  phi : ∀ p, g.phi p = if .phi p ∈ places then (f.phi p).gone else f.phi p
  ty : ∀ v, (g.value v).ty = (f.value v).ty
  definition_iff : ∀ v s, (g.value v).definition = some s ↔ f.Defines v s ∧ s ∉ places
  users_iff : ∀ v s, s ∈ (g.value v).users ↔ f.Reads v s ∧ s ∉ places
  users_nodup : ∀ v, (g.value v).users.Nodup

def LiveSite (f : Function) : Site → Prop
  | .insn i => (f.insn i).removed = false
  | .phi p => (f.phi p).removed = false

lemma Exact.live_of_defines (hf : f.Exact) (h : f.Defines v s) : f.LiveSite s := by
  cases s with
  | insn i => exact hf.live_of_dest h
  | phi p => exact h.1

lemma Exact.live_of_reads (hf : f.Exact) (h : f.Reads v s) : f.LiveSite s := by
  cases s with
  | insn i => exact hf.live_of_reads_insn h
  | phi p => exact hf.live_of_reads_phi h

lemma Discarded.values_of_discard (hf : f.Exact) (hd : f.Discarded places g)
    (hdef : ∀ v, (h.value v).definition = none ∧ f.Defines v s ∨
      (h.value v).definition = (g.value v).definition ∧ ¬f.Defines v s)
    (husers : ∀ v t, t ∈ (h.value v).users ↔ t ∈ (g.value v).users ∧ ¬(t = s ∧ f.Reads v s)) :
    (∀ v t, (h.value v).definition = some t ↔ f.Defines v t ∧ t ∉ places ++ [s]) ∧
      ∀ v t, t ∈ (h.value v).users ↔ f.Reads v t ∧ t ∉ places ++ [s] := by
  refine ⟨fun v t => ?_, fun v t => ?_⟩
  · rcases hdef v with ⟨hnone, hs⟩ | ⟨hsame, hs⟩
    · rw [hnone]
      simp only [reduceCtorEq, mem_append, mem_singleton, not_or, false_iff]
      exact fun hand => hand.2.2 (hf.defines_unique hand.1 hs)
    · rw [hsame, hd.definition_iff]
      simp only [mem_append, mem_singleton, not_or]
      refine ⟨fun hand => ⟨hand.1, hand.2, ?_⟩, fun hand => ⟨hand.1, hand.2.1⟩⟩
      rintro rfl
      exact hs hand.1
  · rw [husers, hd.users_iff]
    simp only [mem_append, mem_singleton, not_or]
    refine ⟨fun hand => ⟨hand.1.1, hand.1.2, ?_⟩, fun hand => ⟨⟨hand.1, hand.2.1⟩, ?_⟩⟩
    · rintro rfl
      exact hand.2 ⟨rfl, hand.1.1⟩
    · exact fun heq => hand.2.2 heq.1

lemma Discarded.discardInsn (hf : f.Exact) (h : f.Discarded places g) (hnew : .insn i ∉ places) :
    f.Discarded (places ++ [.insn i]) (g.discardInsn i) := by
  have hinsn : g.insn i = f.insn i := by rw [h.insn, if_neg hnew]
  have hform : g.discardInsn i = ((g.removeUsers (.insn i) (f.insn i).op.operands).setDest
      (f.insn i).dest none).modifyInsn i (·.gone) := by
    rw [Function.discardInsn, hinsn]
  have hvalues := h.values_of_discard (h := g.discardInsn i) (s := .insn i) hf
    (by
      intro v
      rw [hform, value_modifyInsn, definition_setDest, definition_removeUsers, size_values_removeUsers]
      by_cases hv : (f.insn i).dest = some v
      · have hlt := f.lt_values_of_definition ((hf.definition_iff v (.insn i)).2 hv)
        exact Or.inl ⟨if_pos ⟨hv, by rw [h.size_values]; exact hlt⟩, hv⟩
      · exact Or.inr ⟨if_neg fun hand => hv hand.1, hv⟩)
    (by
      intro v t
      rw [hform, value_modifyInsn, users_setDest, mem_users_removeUsers]
      rfl)
  refine ⟨?_, ?_, fun j => ?_, fun p => ?_, fun v => ?_, hvalues.1, hvalues.2, fun v => ?_⟩
  · rw [hform, blocks_modifyInsn, blocks_setDest, blocks_removeUsers, h.blocks]
  · rw [hform, values_modifyInsn, size_values_setDest, size_values_removeUsers, h.size_values]
  · have hj : (g.discardInsn i).insn j = if i = j ∧ i.index < g.insns.size then (g.insn j).gone
        else g.insn j := by
      rw [hform, insn_modifyInsn, insns_setDest, insns_removeUsers, insn_setDest, insn_removeUsers]
    rw [hj]
    by_cases hij : i = j
    · subst hij
      by_cases hlt : g.HasInsn i
      · simp [hlt, hinsn]
      · have hdefault := g.insn_of_size_le (Nat.le_of_not_lt hlt)
        simp only [hlt, and_false, if_false, mem_append, mem_singleton, or_true, if_true,
          ← hinsn, hdefault]
        rfl
    · simp [hij, Ne.symm hij, h.insn]
  · rw [hform, phi_modifyInsn, phi_setDest, phi_removeUsers, h.phi]
    simp
  · rw [hform, value_modifyInsn, ty_setDest, ty_removeUsers, h.ty]
  · rw [hform, value_modifyInsn, users_setDest]
    exact nodup_users_removeUsers _ _ _ _ (h.users_nodup v)

lemma Discarded.discardPhi (hf : f.Exact) (h : f.Discarded places g) (hnew : .phi p ∉ places)
    (hlive : f.LivePhi p) : f.Discarded (places ++ [.phi p]) (g.discardPhi p) := by
  have hphi : g.phi p = f.phi p := by rw [h.phi, if_neg hnew]
  have hform : g.discardPhi p = ((g.removeUsers (.phi p) (f.phi p).operands).setDefinition
      (f.phi p).value none).modifyPhi p (·.gone) := by
    rw [Function.discardPhi, hphi]
  have hvalues := h.values_of_discard (h := g.discardPhi p) (s := .phi p) hf
    (by
      intro v
      rw [hform, value_modifyPhi, value_setDefinition, size_values_removeUsers]
      by_cases hv : (f.phi p).value = v
      · have hlt := f.lt_values_of_definition ((hf.definition_iff v (.phi p)).2 ⟨hlive, hv⟩)
        rw [if_pos ⟨hv, by rw [h.size_values, hv]; exact hlt⟩]
        exact Or.inl ⟨rfl, hlive, hv⟩
      · rw [if_neg fun hand => hv hand.1, definition_removeUsers]
        exact Or.inr ⟨rfl, fun hand => hv hand.2⟩)
    (by
      intro v t
      rw [hform, value_modifyPhi, users_setDefinition, mem_users_removeUsers]
      rfl)
  have hlt : g.HasPhi p := g.lt_phis_of_live (by rw [LivePhi, hphi, hlive])
  refine ⟨?_, ?_, fun i => ?_, fun q => ?_, fun v => ?_, hvalues.1, hvalues.2, fun v => ?_⟩
  · rw [hform, blocks_modifyPhi, blocks_setDefinition, blocks_removeUsers, h.blocks]
  · rw [hform, values_modifyPhi, size_values_setDefinition, size_values_removeUsers, h.size_values]
  · rw [hform, insn_modifyPhi, insn_setDefinition, insn_removeUsers, h.insn]
    simp
  · have hq : (g.discardPhi p).phi q = if p = q ∧ p.index < g.phis.size then (g.phi q).gone
        else g.phi q := by
      rw [hform, phi_modifyPhi, phis_setDefinition, phis_removeUsers, phi_setDefinition,
        phi_removeUsers]
    rw [hq]
    by_cases hpq : p = q
    · subst hpq
      simp [hlt, hphi]
    · simp [hpq, Ne.symm hpq, h.phi]
  · rw [hform, value_modifyPhi, ty_setDefinition, ty_removeUsers, h.ty]
  · rw [hform, value_modifyPhi, users_setDefinition]
    exact nodup_users_removeUsers _ _ _ _ (h.users_nodup v)

lemma Discarded.foldl {more : List Site} (hf : f.Exact) (h : f.Discarded places g)
    (hnodup : (places ++ more).Nodup) (hlive : ∀ s ∈ more, f.LiveSite s) :
    f.Discarded (places ++ more) (more.foldl discardSite g) := by
  induction more generalizing places g with
  | nil => simpa using h
  | cons s more ih =>
    rw [append_cons] at hnodup ⊢
    have hnew : s ∉ places := by
      rw [append_assoc, nodup_append] at hnodup
      exact fun hs => hnodup.2.2 s hs s (by simp) rfl
    refine ih ?_ hnodup fun t ht => hlive t (by simp [ht])
    cases s with
    | insn i => exact h.discardInsn hf hnew
    | phi p => exact h.discardPhi hf hnew (hlive (.phi p) (by simp))

/-- Blocks are removed with everything in them. -/
structure Buried (f : Function) (dead : List BlockId) (g : Function) : Prop where
  block : ∀ b, g.block b = if b ∈ dead then Block.gone else f.block b
  size_blocks : g.blocks.size = f.blocks.size
  size_values : g.values.size = f.values.size
  insn : ∀ i, g.insn i = if (f.insn i).block ∈ dead then (f.insn i).gone else f.insn i
  phi : ∀ p, g.phi p = if (f.phi p).block ∈ dead then (f.phi p).gone else f.phi p
  ty : ∀ v, (g.value v).ty = (f.value v).ty
  definition_iff : ∀ v s, (g.value v).definition = some s ↔ f.Defines v s ∧ f.siteBlock s ∉ dead
  users_iff : ∀ v s, s ∈ (g.value v).users ↔ f.Reads v s ∧ f.siteBlock s ∉ dead
  users_nodup : ∀ v, (g.value v).users.Nodup

namespace Buried

variable {dead more : List BlockId}

lemma defines_iff (h : f.Buried dead g) (v : ValueId) (s : Site) :
    g.Defines v s ↔ f.Defines v s ∧ f.siteBlock s ∉ dead :=
  defines_shed (d := fun s => f.siteBlock s ∈ dead) h.insn h.phi v s

lemma reads_iff (h : f.Buried dead g) (v : ValueId) (s : Site) :
    g.Reads v s ↔ f.Reads v s ∧ f.siteBlock s ∉ dead :=
  reads_shed (d := fun s => f.siteBlock s ∈ dead) h.insn h.phi v s

lemma siteBlock_eq (h : f.Buried dead g) (s : Site) : g.siteBlock s = f.siteBlock s := by
  cases s with
  | insn i =>
    rw [siteBlock, siteBlock, h.insn]
    split <;> rfl
  | phi p =>
    rw [siteBlock, siteBlock, h.phi]
    split <;> rfl

lemma exact (h : f.Buried dead g) (hf : f.Exact) : g.Exact := by
  refine Exact.shed (d := fun s => f.siteBlock s ∈ dead) h.insn h.phi hf (fun b i => ?_)
    (fun b => ?_) (fun b p => ?_) (fun b => ?_)
    (fun v s => by rw [h.definition_iff, hf.definition_iff])
    (fun v s => by rw [h.users_iff, hf.users_iff]) h.users_nodup
  · rw [h.block, hf.insns_iff]
    split <;> grind [Block.gone, siteBlock, hf.insns_iff]
  · rw [h.block]
    split
    · exact nodup_nil
    · exact hf.insns_nodup b
  · rw [h.block, hf.phis_iff]
    split <;> grind [Block.gone, siteBlock, hf.phis_iff]
  · rw [h.block]
    split
    · exact nodup_nil
    · exact hf.phis_nodup b

lemma orderly (h : f.Buried dead g) (hf : f.Orderly) : g.Orderly := by
  refine ⟨h.exact hf.exact, fun b hb => ?_⟩
  rw [h.block] at hb ⊢
  split
  · rfl
  · rename_i hlive
    rw [if_neg hlive] at hb
    exact hf.gone b hb

lemma refl (hf : f.Exact) : f.Buried [] f := by
  refine ⟨?_, rfl, rfl, ?_, ?_, fun _ => rfl, ?_, ?_, hf.users_nodup⟩
  · simp
  · simp
  · simp
  · simpa using hf.definition_iff
  · simpa using hf.users_iff

lemma trans {k : Function} (h : f.Buried dead g) (hk : g.Buried more k) :
    f.Buried (dead ++ more) k := by
  refine ⟨fun b => ?_, hk.size_blocks.trans h.size_blocks, hk.size_values.trans h.size_values,
    fun i => ?_, fun p => ?_, fun v => (hk.ty v).trans (h.ty v), fun v s => ?_, fun v s => ?_,
    hk.users_nodup⟩
  · rw [hk.block, h.block]
    by_cases hb : b ∈ dead <;> by_cases hm : b ∈ more <;> simp [hb, hm]
  · rw [hk.insn, h.insn]
    by_cases hd : (f.insn i).block ∈ dead <;> by_cases hm : (f.insn i).block ∈ more <;>
      simp [hd, hm, Instruction.gone]
  · rw [hk.phi, h.phi]
    by_cases hd : (f.phi p).block ∈ dead <;> by_cases hm : (f.phi p).block ∈ more <;>
      simp [hd, hm, Phi.gone]
  · rw [hk.definition_iff, h.defines_iff, h.siteBlock_eq]
    simp [and_assoc]
  · rw [hk.users_iff, h.reads_iff, h.siteBlock_eq]
    simp [and_assoc]

end Buried

lemma Exact.mem_places (hf : f.Exact) (b : BlockId) (s : Site) :
    s ∈ (f.block b).insns.map Site.insn ++ (f.block b).phis.map Site.phi ↔
      f.LiveSite s ∧ f.siteBlock s = b := by
  cases s with
  | insn i => simp [LiveSite, siteBlock, hf.insns_iff]
  | phi p => simp [LiveSite, siteBlock, hf.phis_iff]

lemma Exact.buried_discardBlock (hf : f.Exact) (hb : f.HasBlock b) :
    f.Buried [b] (f.discardBlock b) := by
  let places := (f.block b).insns.map Site.insn ++ (f.block b).phis.map Site.phi
  have hmem : ∀ s, s ∈ places ↔ f.LiveSite s ∧ f.siteBlock s = b := hf.mem_places b
  have hnodup : places.Nodup := by
    refine nodup_append.2 ⟨(hf.insns_nodup b).map fun i j => Site.insn.inj,
      (hf.phis_nodup b).map fun p q => Site.phi.inj, fun s hs t ht => ?_⟩
    obtain ⟨i, -, rfl⟩ := mem_map.1 hs
    obtain ⟨p, -, rfl⟩ := mem_map.1 ht
    simp
  have hstart : f.Discarded [] f :=
    ⟨rfl, rfl, by simp, by simp, fun _ => rfl, by simpa using hf.definition_iff,
      by simpa using hf.users_iff, hf.users_nodup⟩
  have hdone : f.Discarded ([] ++ places) (places.foldl discardSite f) :=
    hstart.foldl hf (by simpa using hnodup) fun s hs => ((hmem s).1 hs).1
  rw [nil_append] at hdone
  have hform : f.discardBlock b = (places.foldl discardSite f).modifyBlock b fun _ => Block.gone := by
    rw [foldl_append, foldl_map, foldl_map]
    rfl
  rw [hform]
  refine ⟨fun c => ?_, ?_, ?_, fun i => ?_, fun p => ?_, hdone.ty, fun v s => ?_, fun v s => ?_,
    hdone.users_nodup⟩
  · rw [block_modifyBlock, block, hdone.blocks, ← block]
    by_cases hc : b = c
    · subst hc
      simp [hb]
    · simp [hc, Ne.symm hc]
  · rw [size_blocks_modifyBlock, hdone.blocks]
  · rw [values_modifyBlock, hdone.size_values]
  · rw [insn_modifyBlock, hdone.insn]
    by_cases hi : f.LiveInsn i
    · simp [hmem, LiveSite, siteBlock, hi]
    · rw [hf.gone_insn (by simpa using hi), ite_self, ite_self]
  · rw [phi_modifyBlock, hdone.phi]
    by_cases hp : f.LivePhi p
    · simp [hmem, LiveSite, siteBlock, hp]
    · rw [hf.gone_phi (by simpa using hp), ite_self, ite_self]
  · rw [value_modifyBlock, hdone.definition_iff, hmem, mem_singleton]
    exact and_congr_right fun hs => not_congr (and_iff_right (hf.live_of_defines hs))
  · rw [value_modifyBlock, hdone.users_iff, hmem, mem_singleton]
    exact and_congr_right fun hs => not_congr (and_iff_right (hf.live_of_reads hs))

lemma Exact.buried_foldl (hf : f.Exact) {dead : List BlockId} (hdead : ∀ b ∈ dead, f.HasBlock b) :
    f.Buried dead (dead.foldl (fun g b => g.discardBlock b) f) := by
  induction dead generalizing f with
  | nil => exact Buried.refl hf
  | cons b dead ih =>
    have hstep := hf.buried_discardBlock (hdead b (by simp))
    refine hstep.trans (ih (hstep.exact hf) fun c hc => ?_)
    rw [HasBlock, hstep.size_blocks]
    exact hdead c (by simp [hc])

/-- The function without the edges from dead blocks to living ones. -/
def detached (f : Function) (alive : BlockId → Bool) (dead : List BlockId) : Function :=
  dead.foldl (fun g b => g.detachBlock alive b) f

lemma size_blocks_detached (f : Function) (alive : BlockId → Bool) (dead : List BlockId) :
    (f.detached alive dead).blocks.size = f.blocks.size :=
  foldl_keeps (k := (·.blocks.size)) (fun g => g.size_blocks_detachBlock alive) dead f

lemma Orderly.pruned_detached (h : f.Orderly) (alive : BlockId → Bool) (dead : List BlockId) :
    f.Pruned (fun c p => !(decide (p ∈ dead) && alive c && decide (c ∈ f.successors p)))
      (f.detached alive dead) := by
  induction dead generalizing f with
  | nil => exact Pruned.refl fun c p _ => by simp
  | cons b dead ih =>
    have hstep := h.pruned_detachBlock alive b
    refine (hstep.trans (ih (h.detachBlock alive b))).congr fun c p _ => ?_
    rw [hstep.successors]
    by_cases hp : p = b
    · subst hp
      cases alive c <;> by_cases hc : c ∈ f.successors p <;> simp [hc]
    · simp [hp]

lemma Orderly.detached (h : f.Orderly) (alive : BlockId → Bool) (dead : List BlockId) :
    (f.detached alive dead).Orderly := by
  induction dead generalizing f with
  | nil => exact h
  | cons b dead ih => exact ih (h.detachBlock alive b)

def reached (f : Function) (b : BlockId) : Bool :=
  decide (b.index ∈ f.graph.reversePostorder f.entry.index)

lemma reached_entry (hlive : f.LiveBlock f.entry) : f.reached f.entry = true :=
  decide_eq_true (mem_of_head? (Graph.head?_reversePostorder (f.lt_blocks_of_live hlive)))

lemma reached_of_successor {c : BlockId} (hb : f.reached b = true) (hlive : f.LiveBlock b)
    (hc : c ∈ f.successors b) (hlt : f.HasBlock c) : f.reached c = true := by
  refine decide_eq_true (Graph.reversePostorder_closed (of_decide_eq_true hb) ?_ hlt)
  simp only [graph, hlive, Bool.false_eq_true, if_false]
  exact mem_map_of_mem hc

def unreached (f : Function) : List BlockId :=
  f.blockIds.filter fun b => !f.reached b

lemma Orderly.buried_unreached (h : f.Orderly) :
    (f.detached f.reached f.unreached).Buried f.unreached f.removeUnreachableBlocks.2 := by
  refine (h.detached f.reached f.unreached).exact.buried_foldl fun b hb => ?_
  rw [HasBlock, size_blocks_detached]
  exact f.lt_blocks_of_live ((f.mem_blockIds b).1 (mem_of_mem_filter hb))

lemma Orderly.removeUnreachableBlocks (h : f.Orderly) : f.removeUnreachableBlocks.2.Orderly :=
  h.buried_unreached.orderly (h.detached f.reached f.unreached)

lemma size_insns_discardBlock (f : Function) (b : BlockId) :
    (f.discardBlock b).insns.size = f.insns.size := by
  have hinsn : ∀ (g : Function) i, (g.discardInsn i).insns.size = g.insns.size := by
    simp [discardInsn]
  have hphi : ∀ (g : Function) p, (g.discardPhi p).insns.size = g.insns.size := by simp [discardPhi]
  rw [discardBlock, insns_modifyBlock]
  exact (foldl_keeps (k := (·.insns.size)) hphi _ _).trans
    (foldl_keeps (k := (·.insns.size)) hinsn _ _)

lemma Orderly.size_insns_removeUnreachableBlocks (h : f.Orderly) :
    f.removeUnreachableBlocks.2.insns.size = f.insns.size := by
  have hdetached := congrArg Array.size (h.pruned_detached f.reached f.unreached).insns
  exact (foldl_keeps (k := (·.insns.size)) size_insns_discardBlock f.unreached _).trans hdetached

/-! ## What is left -/

/-- The unreached blocks are gone, and with them their entries among predecessors. -/
structure Trimmed (f g : Function) : Prop where
  gone : ∀ b, f.reached b = false → g.block b = Block.gone
  block : ∀ b, f.reached b = true →
    g.block b = { f.block b with preds := (f.block b).preds.filter f.reached }
  insn : ∀ i, g.insn i = if f.reached (f.insn i).block then f.insn i else (f.insn i).gone
  phi : ∀ p, g.phi p = if f.reached (f.phi p).block then { f.phi p with
    operands := keepBy f.reached (f.block (f.phi p).block).preds (f.phi p).operands }
      else (f.phi p).gone

lemma mem_unreached : b ∈ f.unreached ↔ f.LiveBlock b ∧ f.reached b = false := by
  rw [unreached, mem_filter, mem_blockIds]
  simp

/-- Where predecessors have the edges they stand for, removing the unreached blocks leaves the others as
they were. -/
lemma Orderly.trimmed (h : f.Orderly)
    (hedges : ∀ b, ∀ p ∈ f.predecessors b, b ∈ f.successors p ∧ f.LiveBlock p) :
    f.Trimmed f.removeUnreachableBlocks.2 := by
  have hburied := h.buried_unreached
  have hpruned := h.pruned_detached f.reached f.unreached
  have hkept : ∀ b, f.reached b = true → ∀ p ∈ (f.block b).preds,
      (!(decide (p ∈ f.unreached) && f.reached b && decide (b ∈ f.successors p))) = f.reached p := by
    intro b hb p hp
    obtain ⟨hsucc, hlive⟩ := hedges b p hp
    cases hreached : f.reached p <;> simp [mem_unreached, hb, hsucc, hlive, hreached]
  refine ⟨fun b hb => ?_, fun b hb => ?_, fun i => ?_, fun p => ?_⟩
  · rw [hburied.block]
    split
    · rfl
    · rename_i hmem
      have hremoved : (f.block b).removed = true := by simpa [mem_unreached, hb] using hmem
      rw [hpruned.block, h.gone b hremoved]
      rfl
  · rw [hburied.block, if_neg (by simp [mem_unreached, hb]), hpruned.block,
      filter_congr (hkept b hb)]
  · rw [hburied.insn, hpruned.insn]
    by_cases hreached : f.reached (f.insn i).block = true
    · rw [if_neg (by simp [mem_unreached, hreached]), if_pos hreached]
    · rw [if_neg hreached]
      split
      · rfl
      · rename_i hmem
        by_cases hlive : f.LiveInsn i
        · exact absurd (mem_unreached.2 ⟨h.live_block_of_insn hlive, by simpa using hreached⟩) hmem
        · exact (h.exact.gone_insn (by simpa using hlive)).symm
  · rw [hburied.phi, hpruned.phi]
    dsimp only
    by_cases hreached : f.reached (f.phi p).block = true
    · rw [if_neg (by simp [mem_unreached, hreached]), if_pos hreached,
        keepBy_congr (hkept _ hreached)]
    · rw [if_neg hreached]
      split
      · rfl
      · rename_i hmem
        by_cases hlive : f.LivePhi p
        · exact absurd (mem_unreached.2 ⟨h.live_block_of_phi hlive, by simpa using hreached⟩) hmem
        · have hgone : (f.phi p).removed = true := by simpa using hlive
          rw [h.exact.phi_gone p hgone, keepBy_nil_right, ← h.exact.phi_gone p hgone,
            h.exact.gone_phi hgone]

end Bury

end Dissolve.Ssa.Function
