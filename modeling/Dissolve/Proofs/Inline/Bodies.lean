import Dissolve.Proofs.Inline.Expand

/-!
# Proofs.Inline.Bodies — copies of the blocks of a callee

The instructions of each block of the callee are appended to the block that stands for it, and its
predecessors are recorded (`Filled`). A return becomes a jump to the block behind the call (`Jumps`).
-/

namespace Dissolve.Inline

open List
open Ssa (Edit Function Op Position)
open Ssa.Function
open Semantics

/-! ## Edges -/

section Edges

variable {g : Function} {b : BlockId} {α : Type} {k : α → BlockId}

lemma block_addPredecessors (hb : b.index < g.blocks.size) (ps : List α) (c : BlockId) :
    (ps.foldl (fun f p => f.addPredecessor b (k p)) g).block c = if b = c then
      { g.block c with preds := (g.block c).preds ++ ps.map k } else g.block c := by
  induction ps generalizing g with
  | nil => simp
  | cons p ps ih =>
    have hsize : (g.addPredecessor b (k p)).blocks.size = g.blocks.size := by simp [addPredecessor]
    rw [foldl_cons, ih (by rwa [hsize]), addPredecessor, block_modifyBlock]
    by_cases hc : b = c
    · simp [hc, hc ▸ hb]
    · simp [hc]

lemma insns_addPredecessors (ps : List α) :
    (ps.foldl (fun f p => f.addPredecessor b (k p)) g).insns = g.insns ∧
      (ps.foldl (fun f p => f.addPredecessor b (k p)) g).phis = g.phis ∧
      (ps.foldl (fun f p => f.addPredecessor b (k p)) g).values = g.values ∧
      (ps.foldl (fun f p => f.addPredecessor b (k p)) g).blocks.size = g.blocks.size := by
  induction ps generalizing g with
  | nil => exact ⟨rfl, rfl, rfl, rfl⟩
  | cons p ps ih =>
    obtain ⟨hi, hp, hv, hb⟩ := ih (g := g.addPredecessor b (k p))
    exact ⟨hi, hp, hv, hb.trans (by simp [addPredecessor])⟩

lemma orderly_addPredecessors (h : g.Orderly) (hb : (g.block b).removed = false) (ps : List α) :
    (ps.foldl (fun f p => f.addPredecessor b (k p)) g).Orderly := by
  induction ps generalizing g with
  | nil => exact h
  | cons p ps ih =>
    refine ih (h.modifyBlock (fun _ => rfl) (fun _ => rfl) (fun _ => rfl) (.inl hb)) ?_
    dsimp only
    rw [addPredecessor, block_modifyBlock]
    split <;> exact hb

end Edges

/-! ## One block -/

/-- A return of a copied block: a jump behind the call, and an entry among the returns. -/
def Jumps (g : Function) (value : ValueId → ValueId) (continuation b : BlockId)
    (returns : List (BlockId × Option ValueId)) (returned : Option ValueId) (js : List InsnId) : Prop :=
  ∃ j, js = [j] ∧ j.index < g.insns.size ∧ (g.insn j).op = .goto continuation ∧
    (b, returned.map value) ∈ returns ∧ (g.insn j).dest = none

lemma transcribed_mono {callee g g' : Function} {value : ValueId → ValueId}
    {block : BlockId → BlockId} {continuation b : BlockId}
    {returns returns' : List (BlockId × Option ValueId)} {is js : List InsnId}
    (hinsn : ∀ i : InsnId, i.index < g.insns.size → g'.insn i = g.insn i)
    (hsize : g.insns.size ≤ g'.insns.size) (hsub : returns ⊆ returns')
    (hjs : ∀ j ∈ js, j.index < g.insns.size)
    (h : Transcribed callee g value block (Jumps g value continuation b returns) is js) :
    Transcribed callee g' value block (Jumps g' value continuation b returns') is js := by
  rw [← append_nil js]
  refine h.transfer (.inl rfl) (fun _ _ j hj _ => by rw [hinsn j (hjs j hj)]; exact ⟨rfl, rfl⟩) ?_
  rintro v _ ⟨j, rfl, hj, hop, hmem, hdest⟩
  exact ⟨j, rfl, hj.trans_le hsize, by rw [hinsn j hj, hop], hsub hmem, by rw [hinsn j hj, hdest]⟩

structure Appended (g : Function) (b : BlockId) (js : List InsnId) (g' : Function) : Prop where
  block : ∀ c, g'.block c = if b = c then { g.block c with insns := (g.block c).insns ++ js }
    else g.block c
  insn : ∀ i : InsnId, i.index < g.insns.size → g'.insn i = g.insn i
  insns : g.insns.size ≤ g'.insns.size
  blocks : g'.blocks.size = g.blocks.size
  phis : g'.phis = g.phis
  values : g'.values.size = g.values.size
  fresh : ∀ j ∈ js, g.insns.size ≤ j.index ∧ j.index < g'.insns.size

namespace Appended

variable {g g' g'' : Function} {b : BlockId} {js js' : List InsnId}

lemma refl (g : Function) (b : BlockId) : Appended g b [] g where
  block c := by simp
  insn _ _ := rfl
  insns := le_rfl
  blocks := rfl
  phis := rfl
  values := rfl
  fresh := nofun

lemma trans (h : Appended g b js g') (h' : Appended g' b js' g'') :
    Appended g b (js ++ js') g'' where
  block c := by
    rw [h'.block, h.block]
    split <;> simp
  insn i hi := (h'.insn i (hi.trans_le h.insns)).trans (h.insn i hi)
  insns := h.insns.trans h'.insns
  blocks := h'.blocks.trans h.blocks
  phis := h'.phis.trans h.phis
  values := h'.values.trans h.values
  fresh j hj := by
    rcases mem_append.1 hj with hj | hj
    · exact ⟨(h.fresh j hj).1, (h.fresh j hj).2.trans_le h'.insns⟩
    · exact ⟨h.insns.trans (h'.fresh j hj).1, (h'.fresh j hj).2⟩

lemma appendInsn (hb : g.HasBlock b) (op : Op) (dest : Option ValueId)
    (position : Position) : Appended g b [⟨g.insns.size⟩] (g.appendInsn b op dest position).2 where
  block := block_appendInsn hb
  insn i hi := by rw [insn_appendInsn, if_neg (by omega)]
  insns := by rw [size_appendInsn]; omega
  blocks := blocks_appendInsn
  phis := phis_appendInsn
  values := values_appendInsn
  fresh j hj := by
    rw [mem_singleton.1 hj, size_appendInsn]
    exact ⟨le_rfl, Nat.lt_succ_self _⟩

end Appended

/-- Instructions of the callee can be copied: what stands for their operands exists, and what stands for
their values is not defined yet. -/
structure Pending (callee : Function) (r : Renaming) (g : Function) (todo : List InsnId) : Prop where
  operands : ∀ i ∈ todo, ∀ v ∈ (callee.insn i).op.operands, (r.value v).index < g.values.size
  dest : ∀ i ∈ todo, (∀ index, (callee.insn i).op ≠ .argument index) → ∀ w,
    (callee.insn i).dest = some w →
      (r.value w).index < g.values.size ∧ (g.value (r.value w)).definition = none
  apart : ∀ i ∈ todo, ∀ j ∈ todo, (∀ index, (callee.insn i).op ≠ .argument index) →
    (∀ index, (callee.insn j).op ≠ .argument index) → ∀ w w', (callee.insn i).dest = some w →
      (callee.insn j).dest = some w' → r.value w = r.value w' → i = j

section Block

variable {callee g g' : Function} {r : Renaming} {continuation b c : BlockId} {position : Position}
  {e e' : Expansion} {i : InsnId} {before todo later : List InsnId}

lemma Pending.tail (h : Pending callee r g (i :: todo)) : Pending callee r g todo where
  operands j hj := h.operands j (mem_cons_of_mem i hj)
  dest j hj := h.dest j (mem_cons_of_mem i hj)
  apart j hj k hk := h.apart j (mem_cons_of_mem i hj) k (mem_cons_of_mem i hk)

lemma Pending.appendInsn {op : Op} {dest : Option ValueId} (h : Pending callee r g todo)
    (hdest : ∀ i ∈ todo, (∀ index, (callee.insn i).op ≠ .argument index) → ∀ w,
      (callee.insn i).dest = some w → dest ≠ some (r.value w)) :
    Pending callee r (g.appendInsn b op dest position).2 todo where
  operands i hi v hv := by
    rw [values_appendInsn]
    exact h.operands i hi v hv
  dest i hi hparam w hw := by
    rw [values_appendInsn, definition_appendInsn (hdest i hi hparam w hw)]
    exact h.dest i hi hparam w hw
  apart := h.apart

lemma Pending.placeable (h : Pending callee r g (i :: todo))
    (hparam : ∀ index, (callee.insn i).op ≠ .argument index) :
    g.Placeable (r.op (callee.insn i).op) ((callee.insn i).dest.map r.value) := by
  refine ⟨fun v hv => ?_, fun d hd => ?_⟩
  · rw [Renaming.op, Op.operands_mapTargets, Op.operands_mapOperands] at hv
    obtain ⟨u, hu, rfl⟩ := mem_map.1 hv
    exact h.operands i mem_cons_self u hu
  · obtain ⟨w, hw, rfl⟩ := Option.map_eq_some_iff.1 hd
    exact h.dest i mem_cons_self hparam w hw

lemma expandInsn_cases
    (hrun : (expandInsn callee r continuation b position e i).run g = .ok e' g') :
    (∃ index, (callee.insn i).op = .argument index ∧ e' = e ∧ g' = g) ∨
    (∃ value, (callee.insn i).op = .ret value ∧
      e' = { e with returns := e.returns ++ [(b, value.map r.value)] } ∧
      g' = (g.appendInsn b (.goto continuation) none position).2) ∨
    ((∀ index, (callee.insn i).op ≠ .argument index) ∧ (∀ value, (callee.insn i).op ≠ .ret value) ∧
      e' = { e with copied := e.copied + 1 } ∧
      g' = (g.appendInsn b (r.op (callee.insn i).op) ((callee.insn i).dest.map r.value)
        position).2) := by
  unfold expandInsn at hrun
  dsimp only at hrun
  split at hrun
  · rename_i index hop
    cases hrun
    exact .inl ⟨index, hop, rfl, rfl⟩
  · rename_i value hop
    cases hrun
    exact .inr (.inl ⟨value, hop, rfl, rfl⟩)
  · rename_i hparam hret
    cases hrun
    exact .inr (.inr ⟨fun index h => hparam index h, fun value h => hret value h, rfl, rfl⟩)

lemma expandInsn_loop (hc : callee.WellFormed) (hlive : g.LiveBlock b)
    (horderly : g.Orderly) (hpending : Pending callee r g (todo ++ later))
    (hnodup : (todo ++ later).Nodup) (hlist : (callee.block c).insns = before ++ todo)
    (hrun : (todo.foldlM (expandInsn callee r continuation b position) e).run g = .ok e' g') :
    (∃ js more, Appended g b js g' ∧ e'.returns = e.returns ++ more ∧ more.length ≤ 1 ∧
      (∀ p ∈ more, p.1 = b ∧ ∃ k ∈ todo, ∃ u, (callee.insn k).op = .ret u ∧ p.2 = u.map r.value) ∧
      Transcribed callee g' r.value r.block (Jumps g' r.value continuation b e'.returns) todo js) ∧
    g'.Orderly ∧ Pending callee r g' later := by
  have hb := g.lt_blocks_of_live hlive
  induction todo generalizing before e g with
  | nil =>
    cases hrun
    exact ⟨⟨[], [], .refl _ b, (append_nil _).symm, by simp, nofun, .nil⟩, horderly, hpending⟩
  | cons i todo ih =>
    obtain ⟨e1, g1, hstep, htail⟩ := Edit.ok_of_bind hrun
    have hnext : (callee.block c).insns = (before ++ [i]) ++ todo := by simp [hlist]
    obtain ⟨hi, hnodup'⟩ := nodup_cons.1 hnodup
    rcases expandInsn_cases hstep with ⟨index, hop, rfl, rfl⟩ | ⟨value, hop, rfl, rfl⟩ |
      ⟨hparam, hret, rfl, rfl⟩
    · obtain ⟨⟨js, more, happ, hreturns, hone, hmore, hcopy⟩, hrest⟩ :=
        ih hlive horderly hpending.tail hnodup' hnext htail hb
      refine ⟨⟨js, more, happ, hreturns, hone, fun p hp => ?_, .param hop hcopy⟩, hrest⟩
      obtain ⟨hfst, k, hk, hu⟩ := hmore p hp
      exact ⟨hfst, k, mem_cons_of_mem _ hk, hu⟩
    · -- a return is the last instruction
      obtain rfl := hc.rest_of_terminator hlist (by rw [hop]; rfl)
      cases htail
      refine ⟨⟨_, [(b, value.map r.value)], .appendInsn hb _ _ _, rfl, by simp, fun p hp => ?_,
        .leave hop ⟨_, rfl, ?_, ?_, by simp, ?_⟩⟩, horderly.appendInsn _ hlive ⟨?_, ?_⟩,
        hpending.tail.appendInsn fun _ _ _ _ _ => by simp⟩
      · rw [mem_singleton.1 hp]
        exact ⟨rfl, i, mem_cons_self, value, hop, rfl⟩
      · rw [size_appendInsn]
        exact Nat.lt_succ_self _
      · rw [insn_appendInsn, if_pos rfl]
      · rw [insn_appendInsn, if_pos rfl]
      · exact nofun
      · exact fun d hd => by cases hd
    · have happ := Appended.appendInsn hb (r.op (callee.insn i).op)
        ((callee.insn i).dest.map r.value) position
      have hlive' : (g.appendInsn b (r.op (callee.insn i).op) ((callee.insn i).dest.map r.value)
          position).2.LiveBlock b := by
        rwa [LiveBlock, happ.block, if_pos rfl]
      have hpending' : Pending callee r (g.appendInsn b (r.op (callee.insn i).op)
          ((callee.insn i).dest.map r.value) position).2 (todo ++ later) := by
        refine hpending.tail.appendInsn fun j hj hparam' w hw heq => ?_
        obtain ⟨u, hu, hvalue⟩ := Option.map_eq_some_iff.1 heq
        obtain rfl := hpending.apart i mem_cons_self j (mem_cons_of_mem i hj) hparam
          hparam' u w hu hw hvalue
        exact hi hj
      obtain ⟨⟨js, more, happ', hreturns, hone, hmore, hcopy⟩, hrest⟩ := ih hlive'
        (horderly.appendInsn _ hlive (hpending.placeable hparam)) hpending' hnodup' hnext htail
        (by rwa [HasBlock, happ.blocks])
      have hnew := happ'.insn ⟨g.insns.size⟩ (happ.fresh _ mem_cons_self).2
      rw [insn_appendInsn, if_pos rfl] at hnew
      refine ⟨⟨_ :: js, more, happ.trans happ', hreturns, hone, fun p hp => ?_,
        .copy (by rw [hnew]; rfl) (by rw [hnew]) hparam hret hcopy⟩, hrest⟩
      obtain ⟨hfst, k, hk, hu⟩ := hmore p hp
      exact ⟨hfst, k, mem_cons_of_mem _ hk, hu⟩

end Block

/-! ## All blocks -/

/-- The copies of some blocks of the callee have been filled. -/
structure Filled (base callee : Function) (r : Renaming) (continuation : BlockId)
    (done : List BlockId) (returns : List (BlockId × Option ValueId)) (g : Function) : Prop where
  insn : ∀ i : InsnId, i.index < base.insns.size → g.insn i = base.insn i
  insns : base.insns.size ≤ g.insns.size
  blocks : g.blocks.size = base.blocks.size
  phis : g.phis = base.phis
  values : g.values.size = base.values.size
  orderly : g.Orderly
  other : ∀ b, (∀ c ∈ done, r.block c ≠ b) → g.block b = base.block b
  copy : ∀ c ∈ done, ∃ js, g.block (r.block c) = { base.block (r.block c) with
      insns := (base.block (r.block c)).insns ++ js
      preds := (base.block (r.block c)).preds ++ (callee.predecessors c).map r.block } ∧
    (∀ j ∈ js, base.insns.size ≤ j.index ∧ j.index < g.insns.size) ∧
    Transcribed callee g r.value r.block (Jumps g r.value continuation (r.block c) returns)
      (callee.block c).insns js
  origin : ∀ p ∈ returns, ∃ c ∈ done, p.1 = r.block c ∧ ∃ k ∈ (callee.block c).insns, ∃ u,
    (callee.insn k).op = .ret u ∧ p.2 = u.map r.value
  distinct : (returns.map Prod.fst).Nodup

namespace Filled

variable {base callee g g' : Function} {r : Renaming} {continuation c : BlockId}
  {done todo : List BlockId} {later : List InsnId} {e e' : Expansion} {position : Position}

lemma start (callee : Function) (r : Renaming) (continuation : BlockId) (h : base.Orderly) :
    Filled base callee r continuation [] [] base where
  insn _ _ := rfl
  insns := le_rfl
  blocks := rfl
  phis := rfl
  values := rfl
  orderly := h
  other _ _ := rfl
  copy := nofun
  origin := nofun
  distinct := nodup_nil

section

variable (hc : callee.WellFormed) (h : Filled base callee r continuation done e.returns g)
include hc h

lemma step (hlive : base.LiveBlock (r.block c))
    (hnew : ∀ d ∈ done, r.block d ≠ r.block c)
    (hpending : Pending callee r g ((callee.block c).insns ++ later))
    (hnodup : ((callee.block c).insns ++ later).Nodup)
    (hrun : (expandBlock callee r continuation position e c).run g = .ok e' g') :
    Filled base callee r continuation (done ++ [c]) e'.returns g' ∧ Pending callee r g' later := by
  obtain ⟨e1, g1, hloop, ⟨⟩⟩ := Edit.ok_of_bind hrun
  have hlive0 : g.LiveBlock (r.block c) := by rw [LiveBlock, h.other _ hnew, hlive]
  obtain ⟨⟨js, more, happ, hreturns, hone, hmore, hcopy⟩, horderly, hpending'⟩ := expandInsn_loop hc
    hlive0 h.orderly hpending hnodup (nil_append (callee.block c).insns).symm hloop
  have hlive1 : g1.LiveBlock (r.block c) := by
    rwa [LiveBlock, happ.block, if_pos rfl]
  have hlt1 := g1.lt_blocks_of_live hlive1
  have hblock := fun d => block_addPredecessors (k := r.block) hlt1 (callee.predecessors c) d
  obtain ⟨hinsns, hphis, hvalues, hblocks⟩ :=
    insns_addPredecessors (g := g1) (b := r.block c) (k := r.block) (callee.predecessors c)
  have hsame : ∀ i, ((callee.predecessors c).foldl
      (fun f pred => f.addPredecessor (r.block c) (r.block pred)) g1).insn i = g1.insn i := fun i => by
    rw [Ssa.Function.insn, hinsns, ← Ssa.Function.insn]
  have hvalue : ∀ v, ((callee.predecessors c).foldl
      (fun f pred => f.addPredecessor (r.block c) (r.block pred)) g1).value v = g1.value v := fun v => by
    rw [Ssa.Function.value, hvalues, ← Ssa.Function.value]
  refine ⟨⟨fun i hi => ?_, ?_, ?_, ?_, ?_, orderly_addPredecessors horderly hlive1 _, fun b hb => ?_,
    fun d hd => ?_, fun p hp => ?_, ?_⟩, fun i hi v hv => ?_, fun i hi hparam w hw => ?_,
    hpending'.apart⟩
  · rw [hsame, happ.insn i (hi.trans_le h.insns), h.insn i hi]
  · rw [hinsns]
    exact h.insns.trans happ.insns
  · rw [hblocks, happ.blocks, h.blocks]
  · rw [hphis, happ.phis, h.phis]
  · rw [hvalues, happ.values, h.values]
  · have hne : r.block c ≠ b := hb c (by simp)
    rw [hblock, if_neg hne, happ.block, if_neg hne, h.other b fun d hd => hb d (by simp [hd])]
  · rcases mem_append.1 hd with hd | hd
    · have hne := (hnew d hd).symm
      obtain ⟨js', hblock', hfresh', hcopy'⟩ := h.copy d hd
      refine ⟨js', by rw [hblock, if_neg hne, happ.block, if_neg hne, hblock'], fun j hj => ?_, ?_⟩
      · rw [hinsns]
        exact ⟨(hfresh' j hj).1, (hfresh' j hj).2.trans_le happ.insns⟩
      · exact transcribed_mono (fun i hi => by rw [hsame, happ.insn i hi]) (by rw [hinsns]; exact happ.insns)
          (by rw [hreturns]; exact subset_append_left _ _) (fun j hj => (hfresh' j hj).2) hcopy'
    · obtain rfl := mem_singleton.1 hd
      have hbase := h.other _ hnew
      refine ⟨js, ?_, fun j hj => ?_, ?_⟩
      · rw [hblock, if_pos rfl, happ.block, if_pos rfl, hbase]
      · rw [hinsns]
        exact ⟨h.insns.trans (happ.fresh j hj).1, (happ.fresh j hj).2⟩
      · exact transcribed_mono (fun i _ => hsame i) (by rw [hinsns]) (List.Subset.refl _)
          (fun j hj => (happ.fresh j hj).2) hcopy
  · rw [hreturns] at hp
    rcases mem_append.1 hp with hp | hp
    · obtain ⟨d, hd, hrest⟩ := h.origin p hp
      exact ⟨d, by simp [hd], hrest⟩
    · obtain ⟨hfst, hrest⟩ := hmore p hp
      exact ⟨c, by simp, hfst, hrest⟩
  · rw [hreturns, map_append, nodup_append]
    refine ⟨h.distinct, ?_, fun x hx y hy heq => ?_⟩
    · cases more with
      | nil => exact nodup_nil
      | cons p rest =>
        obtain rfl : rest = [] := length_eq_zero_iff.1 (by simpa using hone)
        exact nodup_singleton _
    · obtain ⟨p, hp, rfl⟩ := mem_map.1 hx
      obtain ⟨p', hp', rfl⟩ := mem_map.1 hy
      obtain ⟨d, hd, hfst, -⟩ := h.origin p hp
      exact hnew d hd (hfst.symm.trans (heq.trans (hmore p' hp').1))
  · rw [hvalues]
    exact hpending'.operands i hi v hv
  · rw [hvalues, hvalue]
    exact hpending'.dest i hi hparam w hw

lemma loop (hlive : ∀ c ∈ todo, base.LiveBlock (r.block c))
    (hinj : ∀ c ∈ todo, ∀ d ∈ done ++ todo, r.block d = r.block c → d = c)
    (hnodup : (done ++ todo).Nodup)
    (hpending : Pending callee r g (todo.flatMap fun c => (callee.block c).insns))
    (hinsns : (todo.flatMap fun c => (callee.block c).insns).Nodup)
    (hrun : (todo.foldlM (expandBlock callee r continuation position) e).run g = .ok e' g') :
    Filled base callee r continuation (done ++ todo) e'.returns g' := by
  induction todo generalizing done e g with
  | nil =>
    cases hrun
    rwa [append_nil]
  | cons c todo ih =>
    obtain ⟨e1, g1, hstep, htail⟩ := Edit.ok_of_bind hrun
    rw [append_cons] at hnodup hinj ⊢
    have hapart : ∀ d ∈ done, r.block d ≠ r.block c := by
      intro d hd heq
      obtain rfl := hinj c mem_cons_self d (by simp [hd]) heq
      rw [append_assoc, nodup_append] at hnodup
      exact hnodup.2.2 d hd d (by simp) rfl
    obtain ⟨hfilled, hpending'⟩ := h.step hc (hlive c mem_cons_self) hapart hpending hinsns hstep
    exact ih hfilled (fun d hd => hlive d (mem_cons_of_mem _ hd))
      (fun d hd => hinj d (mem_cons_of_mem _ hd)) hnodup hpending'
      (nodup_append.1 hinsns).2.1 htail

end

end Filled

end Dissolve.Inline
