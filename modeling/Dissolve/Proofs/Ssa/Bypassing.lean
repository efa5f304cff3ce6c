import Dissolve.Proofs.Ssa.Merging
import Dissolve.Proofs.Ssa.Unreachable

/-!
# Proofs.Ssa.Bypassing — the predecessors of a block that only jumps go on to its target

The edges into the block are sent to its target one predecessor after another. `Function.Rerouting` says
what is true in between: which terminators jump elsewhere and which edges are recorded at the target,
each with the operands that belong to the edge from the block. Then the block has no edges left and is
removed (`Function.Bypassed`), and the result is well formed (`Bypassed.wellFormed`).

It is essential that no handler leads to the block: only terminators are sent elsewhere.
-/

namespace Dissolve.Ssa

open List

variable {v : ValueId} {op : Op} {j slot : Nat} {operands : List ValueId}

namespace Op

lemma mapTargets_congr {g h : BlockId → BlockId} (hgh : ∀ t ∈ op.targets, g t = h t) :
    op.mapTargets g = op.mapTargets h := by
  cases op with
  | goto target => simp_all [mapTargets, targets]
  | branch cond left right thenTarget elseTarget => simp_all [mapTargets, targets]
  | switch selector keys targets default =>
    simp only [mapTargets, switch.injEq, true_and]
    refine ⟨map_congr_left fun t ht => hgh t ?_, hgh default ?_⟩
    · simp [Op.targets, ht]
    · simp [Op.targets]
  | _ => rfl

lemma mapTargets_mapTargets (op : Op) (g h : BlockId → BlockId) :
    (op.mapTargets g).mapTargets h = op.mapTargets (h ∘ g) := by
  cases op <;> simp [mapTargets]

end Op

namespace Function

/-! ## Repeated edges -/

/-- Operands with operand number `slot` repeated at the end. -/
def repeated (slot : Nat) : Nat → List ValueId → List ValueId
  | 0, operands => operands
  | n + 1, operands => repeated slot n operands ++ operands[slot]?.toList

lemma repeated_of_none (h : operands[slot]? = none)
    (n : Nat) : repeated slot n operands = operands := by
  induction n with
  | zero => rfl
  | succ n ih => rw [repeated, ih, h, Option.toList_none, append_nil]

lemma repeated_of_some (h : operands[slot]? = some v) (n : Nat) :
    repeated slot n operands = operands ++ List.replicate n v := by
  induction n with
  | zero => rw [replicate_zero, append_nil, repeated]
  | succ n ih => rw [repeated, ih, h, Option.toList_some, append_assoc, replicate_succ']

lemma repeated_repeated (slot n m : Nat) (operands : List ValueId) :
    repeated slot m (repeated slot n operands) = repeated slot (n + m) operands := by
  cases h : operands[slot]? with
  | none => rw [repeated_of_none h, repeated_of_none h, repeated_of_none h]
  | some v =>
    have hlt := (List.getElem?_eq_some_iff.1 h).1
    rw [repeated_of_some h, repeated_of_some h, repeated_of_some (v := v),
      append_assoc, replicate_append_replicate]
    rw [List.getElem?_append_left hlt, h]

variable {f g : Function} {b c succ pred x : BlockId}

lemma phi_repeatOperand (f : Function) (slot : Nat) (p q : PhiId) :
    (f.repeatOperand slot p).phi q =
    if p = q then { f.phi q with operands := repeated slot 1 (f.phi q).operands } else f.phi q := by
  rw [repeatOperand, phi_setPhiOperands]
  by_cases hpq : p = q
  · subst hpq
    by_cases hlt : f.HasPhi p
    · simp [hlt, repeated]
    · simp [hlt, f.phi_of_size_le (Nat.le_of_not_lt hlt), repeated]
      rfl
  · simp [hpq]

lemma Orderly.repeatOperand (h : f.Orderly) (slot : Nat) (p : PhiId) :
    (f.repeatOperand slot p).Orderly := by
  have hread : ∀ v ∈ (f.phi p).operands, f.HasValue v := fun v hv =>
    h.exact.lt_of_reads (show f.Reads v (.phi p) from hv)
  refine ⟨h.exact.setPhiOperands ?_ ?_, fun c hc => ?_⟩
  · intro v hv
    rcases mem_append.1 hv with hv | hv
    · exact hread v hv
    · exact hread v (mem_of_getElem? (Option.mem_toList.1 hv))
  · by_cases hlive : f.LivePhi p
    · exact .inr hlive
    · exact .inl (by simp [h.exact.phi_gone p (by simpa using hlive)])
  · rw [Function.repeatOperand, block_setPhiOperands] at hc ⊢
    exact h.gone c hc

lemma Orderly.repeatEdge (h : f.Orderly) (hc : f.LiveBlock c) (pred : BlockId)
    (slot : Nat) : (f.repeatEdge c pred slot).Orderly ∧ (f.repeatEdge c pred slot).insns = f.insns ∧
      (∀ x, (f.repeatEdge c pred slot).block x = if x = c then
        { f.block x with preds := (f.block x).preds ++ [pred] } else f.block x) ∧
      ∀ q, (f.repeatEdge c pred slot).phi q = if (f.phi q).block = c then
        { f.phi q with operands := repeated slot 1 (f.phi q).operands } else f.phi q := by
  have hfold : ∀ (ps : List PhiId) (g : Function), g.Orderly → ps.Nodup →
      (ps.foldl (fun g p => g.repeatOperand slot p) g).Orderly ∧
      (ps.foldl (fun g p => g.repeatOperand slot p) g).blocks = g.blocks ∧
      (ps.foldl (fun g p => g.repeatOperand slot p) g).insns = g.insns ∧
      ∀ q, (ps.foldl (fun g p => g.repeatOperand slot p) g).phi q = if q ∈ ps then
        { g.phi q with operands := repeated slot 1 (g.phi q).operands } else g.phi q := by
    intro ps
    induction ps with
    | nil => exact fun g hg _ => ⟨hg, rfl, rfl, fun q => by simp⟩
    | cons p ps ih =>
      intro g hg hnodup
      obtain ⟨hp, hnodup⟩ := nodup_cons.1 hnodup
      obtain ⟨horderly, hblocks, hinsns, hphi⟩ := ih (g.repeatOperand slot p)
        (hg.repeatOperand slot p) hnodup
      refine ⟨horderly, hblocks.trans (blocks_setPhiOperands _ _ _),
        hinsns.trans (insns_setPhiOperands _ _ _), fun q => ?_⟩
      rw [foldl_cons, hphi, phi_repeatOperand]
      by_cases hq : p = q
      · subst hq
        simp [hp]
      · simp [hq, Ne.symm hq]
  have hblock : ∀ x, (f.addPredecessor c pred).block x = if x = c then
      { f.block x with preds := (f.block x).preds ++ [pred] } else f.block x := by
    intro x
    rw [addPredecessor, block_modifyBlock]
    by_cases hx : x = c
    · simp [hx, f.lt_blocks_of_live hc]
    · simp [hx, Ne.symm hx]
  have hadd : (f.addPredecessor c pred).Orderly :=
    h.modifyBlock (fun _ => rfl) (fun _ => rfl) (fun _ => rfl) (.inl hc)
  have hphis : ((f.addPredecessor c pred).block c).phis = (f.block c).phis := by
    rw [hblock, if_pos rfl]
  obtain ⟨horderly, hblocks, hinsns, hphi⟩ := hfold (f.block c).phis _ hadd (h.exact.phis_nodup c)
  rw [Function.repeatEdge, hphis]
  refine ⟨horderly, hinsns, fun x => ?_, fun q => ?_⟩
  · rw [block, hblocks, ← block, hblock]
  · rw [hphi, addPredecessor, phi_modifyBlock]
    by_cases hlive : f.LivePhi q
    · simp [h.exact.phis_iff, hlive]
    · have hgone : (f.phi q).removed = true := by simpa using hlive
      have hmem : q ∉ (f.block c).phis := fun hmem => hlive ((h.exact.phis_iff c q).1 hmem).1
      rw [if_neg hmem, h.exact.phi_gone q hgone, repeated_of_none rfl, ← h.exact.phi_gone q hgone]
      exact (ite_self _).symm

lemma Orderly.repeatEdges (h : f.Orderly) (hc : f.LiveBlock c) (pred : BlockId) (slot n : Nat) :
    ∃ g, (List.replicate n pred).foldl (fun f pred => f.repeatEdge c pred slot) f = g ∧
      g.Orderly ∧ g.insns = f.insns ∧
      (∀ x, g.block x = if x = c then
        { f.block x with preds := (f.block x).preds ++ List.replicate n pred } else f.block x) ∧
      ∀ q, g.phi q = if (f.phi q).block = c then
        { f.phi q with operands := repeated slot n (f.phi q).operands } else f.phi q := by
  induction n generalizing f with
  | zero =>
    refine ⟨f, rfl, h, rfl, fun x => ?_, fun q => ?_⟩
    · simp
    · exact (ite_self _).symm
  | succ n ih =>
    obtain ⟨horderly, hinsns, hblock, hphi⟩ := h.repeatEdge hc pred slot
    obtain ⟨g, hg, horderly', hinsns', hblock', hphi'⟩ := ih horderly (by
      rw [LiveBlock, hblock, if_pos rfl]
      exact hc)
    refine ⟨g, ?_, horderly', hinsns'.trans hinsns, fun x => ?_, fun q => ?_⟩
    · rw [replicate_succ, foldl_cons, hg]
    · rw [hblock', hblock]
      by_cases hx : x = c
      · simp [hx, replicate_succ]
      · simp [hx]
    · rw [hphi', hphi]
      by_cases hq : (f.phi q).block = c
      · simp only [hq, if_true]
        rw [repeated_repeated, Nat.add_comm]
      · simp [hq]

/-! ## Sending edges elsewhere -/

def reroute (b succ : BlockId) (op : Op) : Op :=
  op.mapTargets fun t => if t = b then succ else t

lemma reroute_of_not_mem (h : b ∉ op.targets) : reroute b succ op = op := by
  rw [reroute, Op.mapTargets_congr (h := id), Op.mapTargets_id]
  intro t ht
  exact if_neg fun heq : t = b => h (heq ▸ ht)

lemma reroute_reroute (hne : succ ≠ b) (op : Op) :
    reroute b succ (reroute b succ op) = reroute b succ op := by
  rw [reroute, reroute, Op.mapTargets_mapTargets]
  refine Op.mapTargets_congr fun t _ => ?_
  by_cases ht : t = b <;> simp [ht, hne]

lemma targets_of_plain (h : op.isTerminator = false) : op.targets = [] := by
  cases op <;> simp_all [Op.targets, Op.isTerminator]

/-- The edges from the blocks `done` to `b` go to `succ`, where they are recorded as `added`. -/
structure Rerouting (f : Function) (b succ : BlockId) (slot : Nat) (done added : List BlockId)
    (g : Function) : Prop where
  orderly : g.Orderly
  insn : ∀ i, g.insn i = if (f.insn i).block ∈ done then
    { f.insn i with op := reroute b succ (f.insn i).op } else f.insn i
  block : ∀ c, g.block c = if c = succ then
    { f.block c with preds := (f.block c).preds ++ added } else f.block c
  phi : ∀ q, g.phi q = if (f.phi q).block = succ then
    { f.phi q with operands := repeated slot added.length (f.phi q).operands } else f.phi q
  added : ∀ p, added.count p = if p ∈ done then (f.normalSuccessors p).count b else 0

namespace Rerouting

variable {done added : List BlockId} {p : BlockId}

lemma start (hf : f.WellFormed) : Rerouting f b succ slot [] [] f where
  orderly := hf.orderly
  insn i := by simp
  block c := by simp
  phi q := (ite_self _).symm
  added p := by simp

section

variable (h : Rerouting f b succ slot done added g) (hf : f.WellFormed) (hne : succ ≠ b)
include h hf hne

lemma insn_modifyInsn_last {front : List InsnId} {last : InsnId}
    (hlist : (f.block p).insns = front ++ [last])
    (hfront : ∀ i ∈ front, (f.insn i).op.isTerminator = false) (i : InsnId) :
    (g.modifyInsn last fun insn => { insn with op := reroute b succ insn.op }).insn i =
      if (f.insn i).block ∈ done ++ [p] then
        { f.insn i with op := reroute b succ (f.insn i).op } else f.insn i := by
  have hlast := hf.exact.of_split hlist
  have hlive : g.LiveInsn last := by
    rw [LiveInsn, h.insn]
    split <;> exact hlast.1
  rw [insn_modifyInsn]
  by_cases hi : last = i
  · subst hi
    have hmem : (f.insn last).block ∈ done ++ [p] := by simp [hlast.2]
    rw [if_pos ⟨rfl, g.lt_insns_of_live hlive⟩, if_pos hmem, h.insn]
    split
    · simp only [reroute_reroute hne]
    · rfl
  · rw [if_neg fun hand => hi hand.1, h.insn]
    by_cases hdone : (f.insn i).block ∈ done
    · rw [if_pos hdone, if_pos (mem_append_left _ hdone)]
    · rw [if_neg hdone]
      split
      · rename_i hmem
        have hblock : (f.insn i).block = p := by
          rcases mem_append.1 hmem with hmem | hmem
          · exact absurd hmem hdone
          · exact mem_singleton.1 hmem
        -- a removed instruction, or one before the terminator
        have hplain : (f.insn i).op.isTerminator = false := by
          by_cases hlive : f.LiveInsn i
          · have hin := (hf.exact.insns_iff p i).2 ⟨hlive, hblock⟩
            rw [hlist] at hin
            rcases mem_append.1 hin with hin | hin
            · exact hfront i hin
            · exact absurd (mem_singleton.1 hin).symm hi
          · rw [(hf.exact.insn_gone i (by simpa using hlive)).1]
            rfl
        rw [reroute_of_not_mem (by simp [targets_of_plain hplain])]
      · rfl

lemma step (hsucc : (f.block succ).removed = false) (hp : (f.block p).removed = false) :
    ∃ more, Rerouting f b succ slot (done ++ [p]) (added ++ more)
      (g.redirectEdges b succ slot p) := by
  obtain ⟨front, last, hlist, hlast, hfront⟩ := hf.terminated p hp
  have hgetLast : (g.block p).insns.getLast? = some last := by
    rw [h.block]
    split <;> simp [hlist]
  have hlastBlock : (f.insn last).block = p := (hf.exact.of_split hlist).2
  have hretarget : g.retarget p b succ = ((g.insn last).op.targets.count b,
      g.modifyInsn last fun insn => { insn with op := reroute b succ insn.op }) := by
    rw [retarget, hgetLast]
    rfl
  have hmoved : (g.modifyInsn last fun insn =>
      { insn with op := reroute b succ insn.op }).Orderly := by
    have := h.orderly.retarget p b succ
    rwa [hretarget] at this
  have hlive : ((g.modifyInsn last fun insn =>
      { insn with op := reroute b succ insn.op }).block succ).removed = false := by
    rw [block_modifyInsn, h.block, if_pos rfl]
    exact hsucc
  obtain ⟨g', hg', horderly, hinsns, hblock, hphi⟩ :=
    hmoved.repeatEdges hlive p slot ((g.insn last).op.targets.count b)
  have hcount : (g.insn last).op.targets.count b =
      if p ∈ done then 0 else (f.normalSuccessors p).count b := by
    rw [h.insn, hlastBlock, normalSuccessors_of_last hlist hlast]
    split
    · rw [reroute, Op.targets_mapTargets, count_eq_zero, mem_map]
      rintro ⟨t, -, ht⟩
      by_cases htb : t = b
      · rw [if_pos htb] at ht
        exact hne ht
      · rw [if_neg htb] at ht
        exact htb ht
    · rfl
  refine ⟨List.replicate ((g.insn last).op.targets.count b) p, ?_⟩
  have hrun : g.redirectEdges b succ slot p = g' := by
    rw [redirectEdges, hretarget]
    exact hg'
  rw [hrun]
  refine ⟨horderly, fun i => ?_, fun c => ?_, fun q => ?_, fun x => ?_⟩
  · rw [Function.insn, hinsns, ← Function.insn]
    exact h.insn_modifyInsn_last hf hne hlist hfront i
  · rw [hblock, block_modifyInsn, h.block]
    by_cases hc : c = succ
    · simp [hc]
    · simp [hc]
  · rw [hphi, phi_modifyInsn, h.phi]
    by_cases hq : (f.phi q).block = succ
    · simp only [hq, if_true]
      rw [repeated_repeated, length_append, length_replicate]
    · simp [hq]
  · rw [count_append, h.added, hcount, count_replicate]
    by_cases hx : x = p
    · subst hx
      by_cases hdone : x ∈ done <;> simp [hdone]
    · have hxp : (p == x) = false := by simpa using Ne.symm hx
      simp [hx, hxp]

lemma run (hsucc : f.LiveBlock succ) {ps : List BlockId} (hps : ∀ p ∈ ps, f.LiveBlock p) :
    ∃ more, Rerouting f b succ slot (done ++ ps) (added ++ more)
      (ps.foldl (fun f pred => f.redirectEdges b succ slot pred) g) := by
  induction ps generalizing g done added with
  | nil => exact ⟨[], by simpa using h⟩
  | cons p ps ih =>
    obtain ⟨more, hstep⟩ := h.step hf hne hsucc (hps p mem_cons_self)
    obtain ⟨more', hrest⟩ := ih hstep fun x hx => hps x (mem_cons_of_mem p hx)
    exact ⟨more ++ more', by simpa using hrest⟩

end

end Rerouting

/-! ## Leaving out a block that only jumps -/

lemma getElem?_rerouted {xs more : List BlockId} {ys : List ValueId} {y : ValueId}
    (hlen : ys.length = xs.length) (hv : ys[slot]? = some v)
    (hx : ((xs ++ more).eraseIdx slot)[j]? = some x)
    (hy : ((repeated slot more.length ys).eraseIdx slot)[j]? = some y) :
    (∃ k : Nat, xs[k]? = some x ∧ ys[k]? = some y) ∨ x ∈ more ∧ y = v := by
  rw [List.getElem?_eraseIdx] at hx hy
  rw [repeated_of_some hv] at hy
  obtain ⟨k, hx, hy⟩ : ∃ k : Nat, (xs ++ more)[k]? = some x ∧
      (ys ++ List.replicate more.length v)[k]? = some y := by
    split at hx
    · exact ⟨j, hx, by rwa [if_pos (by assumption)] at hy⟩
    · exact ⟨j + 1, hx, by rwa [if_neg (by assumption)] at hy⟩
  by_cases hlt : k < xs.length
  · rw [List.getElem?_append_left hlt] at hx
    rw [List.getElem?_append_left (by omega)] at hy
    exact .inl ⟨k, hx, hy⟩
  · rw [List.getElem?_append_right (by omega)] at hx hy
    exact .inr ⟨mem_of_getElem? hx, eq_of_mem_replicate (mem_of_getElem? hy)⟩

lemma count_map_replace (hne : succ ≠ b) (xs : List BlockId) (c : BlockId) :
    (xs.map fun x => if x = b then succ else x).count c =
      if c = b then 0 else xs.count c + if c = succ then xs.count b else 0 := by
  induction xs with
  | nil => simp
  | cons x xs ih =>
    rw [map_cons, count_cons, count_cons, count_cons, ih]
    by_cases hx : x = b
    · by_cases hc : c = b
      · simp [hx, hc, hne]
      · by_cases hcs : c = succ
        · subst hcs
          simp [hx, hc, Ne.symm hc]
          omega
        · simp [hx, hc, hcs, Ne.symm hcs, Ne.symm hc]
    · by_cases hc : c = b
      · simp [hx, hc]
      · by_cases hcs : c = succ
        · subst hcs
          simp [hx, hc]
          omega
        · simp [hx, hc, hcs]

/-- The block `b` does nothing but jump to `succ`, and no handler leads to it. -/
structure Trampoline (f : Function) (b succ : BlockId) (jump : InsnId) : Prop where
  insns : (f.block b).insns = [jump]
  op : (f.insn jump).op = .goto succ
  void : (f.insn jump).dest = none
  ne : succ ≠ b
  entry : b ≠ f.entry
  phis : (f.block b).phis = []
  uncovered : (f.block b).handlers = []
  uncaught : ∀ p, ∀ handler ∈ (f.block p).handlers, handler.target ≠ b

/-- The predecessors of `b` go to `succ` instead, and `b` is removed; `slot` is the number of `b` among
the predecessors of `succ`. -/
structure Bypassed (f : Function) (b succ : BlockId) (jump : InsnId) (slot : Nat)
    (added : List BlockId) (g : Function) : Prop where
  orderly : g.Orderly
  insn : ∀ i, i ≠ jump → g.insn i = { f.insn i with op := reroute b succ (f.insn i).op }
  jump_gone : g.insn jump = (f.insn jump).gone
  gone : g.block b = Block.gone
  block : ∀ c, c ≠ b → g.block c = { f.block c with
    preds := if c = succ then ((f.block c).preds ++ added).eraseIdx slot else (f.block c).preds }
  phi : ∀ q, g.phi q = if (f.phi q).block = succ then { f.phi q with
    operands := (repeated slot added.length (f.phi q).operands).eraseIdx slot } else f.phi q
  added : ∀ p, added.count p = (f.normalSuccessors p).count b

namespace Trampoline

variable {jump i : InsnId} {p : BlockId} (h : f.Trampoline b succ jump) (hf : f.WellFormed)

include h

lemma normalSuccessors_eq : f.normalSuccessors b = [succ] := by
  have hlist : (f.block b).insns = [] ++ [jump] := h.insns
  rw [normalSuccessors_of_last hlist (by rw [h.op]; rfl), h.op]
  rfl

lemma successors_eq : f.successors b = [succ] := by
  rw [successors, h.normalSuccessors_eq, h.uncovered]
  rfl

lemma count_successors (p : BlockId) :
    (f.successors p).count b = (f.normalSuccessors p).count b := by
  have hnone : b ∉ (f.block p).handlers.map Handler.target := by
    rw [mem_map]
    rintro ⟨handler, hmem, htarget⟩
    exact h.uncaught p handler hmem htarget
  rw [successors, count_append, count_eq_zero.2 hnone, Nat.add_zero]

include hf

lemma live_jump : f.LiveInsn jump ∧ (f.insn jump).block = b :=
  (hf.exact.insns_iff b jump).1 (by simp [h.insns])

lemma live_block : f.LiveBlock b :=
  hf.orderly.live_block_of_mem (i := jump) (by simp [h.insns])

lemma mem_predecessors : b ∈ f.predecessors succ := by
  rw [← hf.mem_successors_iff, h.successors_eq]
  exact mem_singleton_self succ

lemma live_succ : f.LiveBlock succ :=
  hf.live_of_pred (h.mem_predecessors hf)

lemma definingBlock?_ne : f.definingBlock? v ≠ some b := by
  intro hdef
  rw [definingBlock?_eq, Option.map_eq_some_iff] at hdef
  obtain ⟨s, hs, hblock⟩ := hdef
  have hdef := (hf.exact.definition_iff v s).1 hs
  cases s with
  | insn i =>
    have hd : (f.insn i).dest = some v := hdef
    have hmem := (hf.exact.insns_iff b i).2 ⟨hf.exact.live_of_dest hd, hblock⟩
    rw [h.insns, mem_singleton] at hmem
    rw [hmem, h.void] at hd
    cases hd
  | phi q =>
    have hmem := (hf.exact.phis_iff b q).2 ⟨hdef.1, hblock⟩
    rw [h.phis] at hmem
    cases hmem

lemma availEnd_pred (hv : f.AvailEnd v b) (hp : p ∈ f.predecessors b) : f.AvailEnd v p := by
  intro t ht
  obtain ⟨d, hd, hdef⟩ := hv _ (.step ht hp)
  refine ⟨d, (mem_cons.1 hd).resolve_left ?_, hdef⟩
  rintro rfl
  exact h.definingBlock?_ne hf hdef

end Trampoline

namespace Bypassed

variable {jump i : InsnId} {added : List BlockId} {p : BlockId} {q : PhiId}
  (hb : Bypassed f b succ jump slot added g) (h : f.Trampoline b succ jump) (hf : f.WellFormed)
  (hslot : (f.predecessors succ)[slot]? = some b)

include hb

lemma definition (hf : f.Exact) (hvoid : (f.insn jump).dest = none) (v : ValueId) :
    (g.value v).definition = (f.value v).definition := by
  apply Option.ext
  intro s
  rw [hb.orderly.exact.definition_iff, hf.definition_iff]
  cases s with
  | insn i =>
    by_cases hi : i = jump
    · rw [Defines, Defines, hi, hb.jump_gone, hvoid]
      rfl
    · rw [Defines, Defines, hb.insn i hi]
  | phi q =>
    rw [Defines, Defines, hb.phi]
    split <;> rfl

lemma siteBlock_eq (s : Site) : g.siteBlock s = f.siteBlock s := by
  cases s with
  | insn i =>
    by_cases hi : i = jump
    · rw [siteBlock, siteBlock, hi, hb.jump_gone]
      rfl
    · rw [siteBlock, siteBlock, hb.insn i hi]
  | phi q =>
    rw [siteBlock, siteBlock, hb.phi]
    split <;> rfl

include h hf

lemma mem_added (hp : p ∈ added) : p ∈ f.predecessors b := by
  rw [← hf.mem_successors_iff, ← count_pos_iff, h.count_successors, ← hb.added,
    count_pos_iff]
  exact hp

lemma shortens : f.Shortens g id := by
  have hdefinition := hb.definition hf.exact h.void
  refine ⟨hf.exact, hb.orderly.exact, hdefinition, fun v s _ => hb.siteBlock_eq s, ?_⟩
  -- an edge that goes on to the target came by the block, which defines nothing
  suffices htrail : ∀ l, g.Trail l → ∀ c t, l = c :: t → ∃ t', f.Trail (c :: t') ∧
      ∀ d ∈ t', d = b ∨ d ∈ t by
    intro c t ht
    obtain ⟨t', ht', hpass⟩ := htrail _ ht c t rfl
    refine ⟨rfl, t', ht', fun d hd v hdef => (hpass d hd).resolve_left ?_⟩
    rintro rfl
    exact h.definingBlock?_ne hf hdef
  intro l hl
  induction hl with
  | start =>
    rintro c t ⟨⟩
    exact ⟨[], .start, nofun⟩
  | @step p c t walked edge ih =>
    rintro _ _ ⟨⟩
    obtain ⟨t', ht', hpass⟩ := ih p t rfl
    have hpass' : ∀ d ∈ p :: t', d = b ∨ d ∈ p :: t := by
      rintro d (_ | ⟨_, hd⟩)
      · exact .inr mem_cons_self
      · exact (hpass d hd).imp_right (mem_cons_of_mem p)
    have hc : c ≠ b := by
      rintro rfl
      rw [predecessors, hb.gone] at edge
      cases edge
    rw [predecessors, hb.block c hc] at edge
    split at edge
    · rename_i hsucc
      subst hsucc
      rcases mem_append.1 (mem_of_mem_eraseIdx edge) with hold | hnew
      · exact ⟨p :: t', .step ht' hold, hpass'⟩
      · have hpred := hb.mem_added h hf hnew
        refine ⟨b :: p :: t', .step (.step ht' hpred) (h.mem_predecessors hf), ?_⟩
        rintro d (_ | ⟨_, hd⟩)
        · exact .inl rfl
        · exact hpass' d hd
    · exact ⟨p :: t', .step ht' edge, hpass'⟩

omit hb hf in
lemma phi_block_ne (hf : f.Exact) (hq : f.LivePhi q) : (f.phi q).block ≠ b := by
  intro heq
  have hmem := (hf.phis_iff b q).2 ⟨hq, heq⟩
  rw [h.phis] at hmem
  cases hmem

omit hb in
lemma entry_ne_succ : f.entry ≠ succ := by
  rintro heq
  have hmem := h.mem_predecessors hf
  rw [← heq, hf.flow.entry_preds] at hmem
  cases hmem

omit hb in
lemma ne_jump (hi : i ∈ (f.block c).insns) (hc : c ≠ b) : i ≠ jump := by
  rintro rfl
  exact hc (((hf.exact.insns_iff c i).1 hi).2.symm.trans (h.live_jump hf).2)

omit h hf in
lemma insns_eq (hc : c ≠ b) : (g.block c).insns = (f.block c).insns := by
  rw [hb.block c hc]

include hslot

lemma phi_avail (hv : (g.phi q).operands[j]? = some v)
    (hp : (g.predecessors (g.phi q).block)[j]? = some p) : g.AvailEnd v p := by
  have hs := hb.shortens h hf
  have hlive : f.LivePhi q := by
    have hlive := hb.orderly.exact.live_of_reads_phi (mem_of_getElem? hv)
    rw [LivePhi, hb.phi] at hlive
    split at hlive <;> exact hlive
  have hne := phi_block_ne h hf.exact hlive
  have harity := hf.flow.arity q hlive not_false
  rw [hb.phi] at hv hp
  by_cases hq : (f.phi q).block = succ
  · rw [if_pos hq] at hv hp
    rw [hq] at harity
    obtain ⟨w, hw⟩ : ∃ w, (f.phi q).operands[slot]? = some w := by
      have hlt := (List.getElem?_eq_some_iff.1 hslot).1
      exact ⟨_, List.getElem?_eq_getElem (by omega)⟩
    rw [predecessors, hq, hb.block succ h.ne, if_pos rfl] at hp
    rcases getElem?_rerouted harity hw hp hv with ⟨k, hxs, hys⟩ | ⟨hmem, rfl⟩
    · exact hs.availEnd (hf.flow.phi_avail q k v p hys (hq ▸ hxs))
    · have hend := hf.flow.phi_avail q slot v b hw (hq ▸ hslot)
      exact hs.availEnd (h.availEnd_pred hf hend (hb.mem_added h hf hmem))
  · rw [if_neg hq] at hv hp
    rw [predecessors, hb.block _ hne, if_neg hq] at hp
    exact hs.availEnd (hf.flow.phi_avail q j v p hv hp)

lemma arity (hq : f.LivePhi q) :
    (g.phi q).operands.length = (g.predecessors (g.phi q).block).length := by
  have hne := phi_block_ne h hf.exact hq
  have harity := hf.flow.arity q hq not_false
  rw [hb.phi]
  by_cases hqs : (f.phi q).block = succ
  · rw [if_pos hqs]
    have hlt := (List.getElem?_eq_some_iff.1 hslot).1
    rw [hqs] at harity
    rw [predecessors] at hlt harity
    obtain ⟨w, hw⟩ : ∃ w, (f.phi q).operands[slot]? = some w :=
      ⟨_, List.getElem?_eq_getElem (by omega)⟩
    rw [predecessors, hqs, hb.block succ h.ne, if_pos rfl, repeated_of_some hw,
      length_eraseIdx_of_lt (by rw [length_append]; omega),
      length_eraseIdx_of_lt (by rw [length_append]; omega), length_append,
      length_append, length_replicate, harity]
  · rw [if_neg hqs, predecessors, hb.block _ hne, if_neg hqs]
    exact harity

lemma flow : g.Flow fun _ => False := by
  have hs := hb.shortens h hf
  refine ⟨hb.orderly.exact, ?_, fun q hq => hq.elim, ?_, ?_, ?_, ?_⟩
  · have hentry := hf.flow.entry_preds
    have hne := entry_ne_succ h hf
    rw [show g.entry = f.entry from rfl, predecessors, hb.block _ h.entry.symm, if_neg hne]
    exact hentry
  · intro q hq _
    apply hb.arity h hf hslot
    rw [hb.phi] at hq
    split at hq <;> exact hq
  · intro q j v p hv hp
    exact hb.phi_avail h hf hslot hv hp
  · intro c before i after hlist v hv
    have hc : c ≠ b := by
      rintro rfl
      rw [hb.gone] at hlist
      simp [Block.gone] at hlist
    rw [hb.insns_eq hc] at hlist
    rw [hb.insn i (ne_jump h hf (by simp [hlist]) hc)] at hv
    have hread : v ∈ (f.insn i).op.operands := by
      rwa [reroute, Op.operands_mapTargets] at hv
    exact hs.availBefore (hf.flow.insn_avail c before i after hlist v hread) fun _ hj => hj
  · intro v s hr
    rw [hb.definition hf.exact h.void]
    cases s with
    | insn i =>
      by_cases hi : i = jump
      · rw [Reads, hi, hb.jump_gone] at hr
        cases hr
      · rw [Reads, hb.insn i hi, reroute, Op.operands_mapTargets] at hr
        exact hf.flow.defined v (.insn i) hr
    | phi q =>
      have hmem : v ∈ (f.phi q).operands := by
        rw [Reads, hb.phi] at hr
        split at hr
        · have hmem := mem_of_mem_eraseIdx hr
          cases hslot' : (f.phi q).operands[slot]? with
          | none => rwa [repeated_of_none hslot'] at hmem
          | some w =>
            rw [repeated_of_some hslot'] at hmem
            rcases mem_append.1 hmem with hmem | hmem
            · exact hmem
            · rw [eq_of_mem_replicate hmem]
              exact mem_of_getElem? hslot'
        · exact hr
      exact hf.flow.defined v (.phi q) hmem

omit hslot in
lemma normalSuccessors_eq (hp : p ≠ b) : g.normalSuccessors p =
    (f.normalSuccessors p).map fun t => if t = b then succ else t := by
  by_cases hlive : f.LiveBlock p
  · obtain ⟨front, last, hlist, hlast, -⟩ := hf.terminated p hlive
    have hop := hb.insn last (ne_jump h hf (by simp [hlist]) hp)
    have hlist' : (g.block p).insns = front ++ [last] := by rw [hb.insns_eq hp, hlist]
    rw [normalSuccessors_of_last hlist hlast, normalSuccessors_of_last hlist' (by
      rw [hop, reroute, Op.isTerminator_mapTargets, hlast]), hop, reroute, Op.targets_mapTargets]
  · have hgone := hf.gone p (by simpa using hlive)
    have hnil : (g.block p).insns = [] := by
      rw [hb.insns_eq hp, hgone]
      rfl
    have hnone : f.normalSuccessors p = [] := by
      simp [normalSuccessors, terminator?, hgone, Block.gone]
    rw [hnone, normalSuccessors, terminator?, hnil]
    rfl

omit hslot in
lemma count_successors (hp : p ≠ b) (c : BlockId) : (g.successors p).count c =
    if c = b then 0 else
      (f.successors p).count c + if c = succ then (f.normalSuccessors p).count b else 0 := by
  have hhandlers : (g.block p).handlers = (f.block p).handlers := by rw [hb.block p hp]
  have hnone : b ∉ (f.block p).handlers.map Handler.target := by
    rw [mem_map]
    rintro ⟨handler, hmem, htarget⟩
    exact h.uncaught p handler hmem htarget
  rw [successors, count_append, hb.normalSuccessors_eq h hf hp, hhandlers,
    count_map_replace h.ne]
  by_cases hc : c = b
  · rw [if_pos hc, if_pos hc, hc, count_eq_zero.2 hnone]
  · rw [if_neg hc, if_neg hc, successors, count_append]
    omega

lemma count_predecessors_succ (p : BlockId) : (g.predecessors succ).count p =
    if p = b then 0 else (f.predecessors succ).count p + (f.normalSuccessors p).count b := by
  have hcount : ∀ x, ((f.predecessors succ ++ added).eraseIdx slot).count x + (if b = x then 1 else 0) =
      (f.predecessors succ).count x + (f.normalSuccessors x).count b := by
    intro x
    obtain ⟨hlt, hget⟩ := List.getElem?_eq_some_iff.1 hslot
    have hlt' : slot < (f.predecessors succ ++ added).length := by
      rw [length_append]
      omega
    have hperm := (getElem_cons_eraseIdx_perm hlt').count_eq x
    rw [getElem_append_left hlt, hget, count_cons, count_append, hb.added] at hperm
    simpa using hperm
  rw [predecessors, hb.block succ h.ne, if_pos rfl, ← predecessors]
  have hp := hcount p
  by_cases hpb : p = b
  · subst hpb
    rw [hf.edges, h.successors_eq, h.normalSuccessors_eq] at hp
    simpa [h.ne, h.ne.symm] using hp
  · rw [if_neg (Ne.symm hpb)] at hp
    rw [if_neg hpb]
    exact hp

lemma edges (c p : BlockId) : (g.predecessors c).count p = (g.successors p).count c := by
  have hnone : g.successors b = [] := successors_of_gone hb.gone
  by_cases hc : c = b
  · subst hc
    rw [predecessors, hb.gone, show Block.gone.preds = [] from rfl, count_nil]
    by_cases hp : p = c
    · rw [hp, hnone, count_nil]
    · rw [hb.count_successors h hf hp, if_pos rfl]
  · by_cases hcs : c = succ
    · subst hcs
      rw [hb.count_predecessors_succ h hf hslot]
      by_cases hp : p = b
      · rw [if_pos hp, hp, hnone, count_nil]
      · rw [if_neg hp, hb.count_successors h hf hp, if_neg hc, if_pos rfl, hf.edges]
    · rw [predecessors, hb.block c hc, if_neg hcs, ← predecessors, hf.edges]
      by_cases hp : p = b
      · rw [hp, hnone, h.successors_eq, count_nil, count_eq_zero, mem_singleton]
        exact hcs
      · rw [hb.count_successors h hf hp, if_neg hc, if_neg hcs, Nat.add_zero]

theorem wellFormed : g.WellFormed := by
  refine ⟨hb.flow h hf hslot, ?_, hb.orderly.gone, ?_, hb.edges h hf hslot⟩
  · rw [show g.entry = f.entry from rfl, hb.block _ h.entry.symm]
    exact hf.entry_live
  · intro c hlive
    have hc : c ≠ b := by
      rintro rfl
      rw [hb.gone] at hlive
      cases hlive
    have hop : ∀ i ∈ (f.block c).insns, (g.insn i).op.isTerminator = (f.insn i).op.isTerminator := by
      intro i hi
      rw [hb.insn i (ne_jump h hf hi hc), reroute, Op.isTerminator_mapTargets]
    rw [hb.block c hc] at hlive ⊢
    obtain ⟨front, last, hlist, hlast, hfront⟩ := hf.terminated c hlive
    refine ⟨front, last, hlist, ?_, fun i hi => ?_⟩
    · rw [hop last (by simp [hlist]), hlast]
    · rw [hop i (by simp [hlist, hi])]
      exact hfront i hi

end Bypassed

end Dissolve.Ssa.Function
