import Dissolve.Proofs.Inline.Connection

/-!
# Proofs.Inline.Edges — the edges of an expanded caller

The caller with the copied blocks between the two parts of the split block has the edges of the caller,
now out of the second part, the edges of the callee, one edge into the copy and one out of each block
that returns. Main statement: predecessors and successors agree (`Opened.edges`).
-/

namespace Dissolve.Inline

open List
open Ssa (Edit Function Op Position)
open Ssa.Function
open Semantics

namespace Opened

variable {f callee g : Function} {call jump : InsnId} {before after : List InsnId} {r : Renaming}
  {returns : List (BlockId × Option ValueId)} {merge : List PhiId} {size : Nat} {b c p d q : BlockId}

variable (he : Opened f callee call before after r jump returns merge size g)
include he

lemma live_call : g.LiveInsn call := by
  rw [LiveInsn, he.kept]
  exact ((he.caller.exact.insns_iff (f.insn call).block call).1 (by simp [he.home])).1

lemma rebound_withoutInsn : Rebound g call none (g.withoutInsn call) := by
  have hread : ∀ v, rebind (g.insn call).dest none v = v := fun v => by
    unfold rebind
    split <;> rfl
  refine ⟨he.orderly.exact.block_withoutInsn (he.live_call), fun i hi => ?_, fun q => ?_,
    fun d _ hd => by cases hd⟩
  · rw [insn_withoutInsn hi, Op.mapOperands_eq_self fun v _ => hread v]
  · rw [phi_withoutInsn, map_congr_left (g := id) fun v _ => hread v, map_id]

lemma successors_withoutInsn (b : BlockId) :
    (g.withoutInsn call).successors b = g.successors b := by
  have hblock := he.orderly.exact.block_withoutInsn (he.live_call) b
  by_cases hmem : call ∈ (g.block b).insns
  · obtain rfl : (f.insn call).block = b := by
      rw [← he.kept]
      exact ((he.orderly.exact.insns_iff b call).1 hmem).2
    have hhead : (g.block (f.insn call).block).insns = (before ++ [call]) ++ [jump] := by
      rw [he.block _ he.home_lt, if_pos rfl]
      simp
    have hcut : ((g.withoutInsn call).block (f.insn call).block).insns = before ++ [jump] := by
      rw [hblock, hhead, filter_append, filter_append, filter_ne he.not_mem.1]
      simp [he.jump_ne]
    refine successors_of_last (k := id) hhead hcut (by rw [he.jumps.2.2]; rfl) ?_ (by rw [hblock])
    rw [insn_withoutInsn (he.jump_ne)]
    exact (Op.mapOperands_id _).symm
  · rw [filter_ne hmem] at hblock
    rw [successors, successors, normalSuccessors, normalSuccessors, terminator?, terminator?, hblock]
    cases hlast : (g.block b).insns.getLast? with
    | none => rfl
    | some i =>
      have hi : i ≠ call := fun heq => hmem (heq ▸ mem_of_getLast? hlast)
      rw [Option.filter_some, Option.filter_some, insn_withoutInsn hi]
      cases (g.insn i).op.isTerminator
      · rfl
      · simp only [if_true, insn_withoutInsn hi]

/-! ## Successors and predecessors -/

lemma cases_target (hlive : g.LiveBlock b) :
    f.LiveBlock b ∨ b = ⟨f.blocks.size⟩ ∨
      ∃ c, callee.LiveBlock c ∧ r.block c = b := by
  rcases Nat.lt_trichotomy b.index f.blocks.size with hlt | heq | hgt
  · rw [LiveBlock, he.block b hlt] at hlive
    exact .inl hlive
  · exact .inr (.inl (congrArg BlockId.mk heq))
  · exact .inr (.inr (he.block_onto b hgt (g.lt_blocks_of_live hlive)))

lemma live_old (hb : f.LiveBlock b) : g.LiveBlock b := by
  rw [LiveBlock, he.block b (f.lt_blocks_of_live hb), hb]

lemma live_tail : g.LiveBlock ⟨f.blocks.size⟩ := by
  rw [LiveBlock, he.tail]

lemma successors_home : g.successors (f.insn call).block = [r.block callee.entry] := by
  rw [← he.successors_withoutInsn]
  exact he.successors_jump (he.rebound_withoutInsn)

lemma successors_behind (hb : f.LiveBlock b) :
    g.successors (if b = (f.insn call).block then ⟨f.blocks.size⟩ else b) = f.successors b := by
  rw [← he.successors_withoutInsn]
  exact he.successors_caller (he.rebound_withoutInsn) hb

lemma successors_cases (hlive : callee.LiveBlock c) :
    r.block c ∈ returns.map Prod.fst ∧ callee.successors c = [] ∧
        g.successors (r.block c) = [⟨f.blocks.size⟩] ∨
      r.block c ∉ returns.map Prod.fst ∧
        g.successors (r.block c) = (callee.successors c).map r.block := by
  have hb := he.rebound_withoutInsn
  rw [← he.successors_withoutInsn]
  by_cases hret : ∃ k ∈ (callee.block c).insns, ∃ u, (callee.insn k).op = .ret u
  · obtain ⟨k, hk, u, hret⟩ := hret
    obtain ⟨front, hinsns, hfront⟩ := last_of_ret he.body hlive hk hret
    have htranscribed := (he.copy c hlive).insns
    rw [hinsns] at htranscribed
    obtain ⟨copied, out, hjs, ⟨j, rfl, -, -, hmem, -⟩, -⟩ := htranscribed.exits hret hfront
    have hsucc := he.successors_return hb hmem
    exact .inl ⟨mem_map.2 ⟨_, hmem, rfl⟩, successors_of_ret he.body he.plain hlive hk hret, hsucc⟩
  · refine .inr ⟨fun hmem => hret ?_, he.successors_copy hb hlive
      fun k hk u hop => hret ⟨k, hk, u, hop⟩⟩
    obtain ⟨p, hp, hfst⟩ := mem_map.1 hmem
    obtain ⟨d, hd, hblock, k, hk, u, hop, -⟩ := he.origin p hp
    obtain rfl := he.block_inj c d hlive hd (hfst.symm.trans hblock)
    exact ⟨k, hk, u, hop⟩

lemma predecessors_old (hb : f.LiveBlock b) : g.predecessors b =
    (f.predecessors b).map fun p => if p = (f.insn call).block then ⟨f.blocks.size⟩ else p := by
  rw [predecessors, he.block b (f.lt_blocks_of_live hb)]
  rfl

lemma predecessors_tail : g.predecessors ⟨f.blocks.size⟩ = returns.map Prod.fst := by
  rw [predecessors, he.tail]

lemma index_of_return (hp : p ∈ returns.map Prod.fst) : f.blocks.size < p.index := by
  obtain ⟨q, hq, rfl⟩ := mem_map.1 hp
  obtain ⟨c, hlive, hfst, -⟩ := he.origin q hq
  rw [hfst]
  exact (he.block_new c hlive).1

lemma predecessors_of_gone (hgone : (g.block b).removed ≠ false) : g.predecessors b = [] := by
  rw [predecessors, he.orderly.gone b (by simpa using hgone)]
  rfl

lemma count_copy (hlive : callee.LiveBlock c) (hd : callee.LiveBlock d) :
    (g.predecessors (r.block c)).count (r.block d) = (callee.successors d).count c := by
  rw [predecessors, he.copy_preds c hlive, ← he.body.edges]
  split
  · rename_i hentry
    subst hentry
    have hne : (f.insn call).block ≠ r.block d := fun heq => by
      have := he.home_lt
      have := (he.block_new d hd).1
      rw [heq] at *
      omega
    rw [he.body.flow.entry_preds, count_singleton, if_neg (by simpa using hne), count_nil]
  · exact count_map_of_inj fun q hq heq => he.block_inj q d (he.body.live_pred hq) hd heq

lemma edges_behind (hq : f.LiveBlock q) (b : BlockId) :
    (g.predecessors b).count (if q = (f.insn call).block then ⟨f.blocks.size⟩ else q) =
      (f.successors q).count b := by
  have hhome_lt := he.home_lt
  have hlt := f.lt_blocks_of_live hq
  have hle : (if q = (f.insn call).block then (⟨f.blocks.size⟩ : BlockId) else q).index ≤
      f.blocks.size := by
    split
    · exact le_rfl
    · exact hlt.le
  have hbound : b ∈ f.successors q → f.HasBlock b := fun hmem =>
    f.lt_blocks_of_live (he.caller.live_of_mem_successors hmem)
  by_cases hlive : g.LiveBlock b
  · rcases he.cases_target hlive with hb | rfl | ⟨c, hc', rfl⟩
    · rw [he.predecessors_old hb, ← he.caller.edges]
      refine count_map_of_inj (r := fun p => if p = (f.insn call).block then ⟨f.blocks.size⟩ else p)
        fun p hp heq => ?_
      have hp := f.lt_blocks_of_live (he.caller.live_pred hp)
      split at heq <;> split at heq
      · rename_i h h'
        rw [h, h']
      · rw [← heq] at hlt
        exact absurd hlt (Nat.lt_irrefl _)
      · rw [heq] at hp
        exact absurd hp (Nat.lt_irrefl _)
      · exact heq
    · rw [he.predecessors_tail, count_eq_zero.2, count_eq_zero.2]
      · exact fun hmem => Nat.lt_irrefl _ (hbound hmem)
      · exact fun hmem => absurd (he.index_of_return hmem) (Nat.not_lt.2 hle)
    · have hnew := (he.block_new c hc').1
      rw [count_eq_zero.2, count_eq_zero.2]
      · exact fun hmem => absurd (hbound hmem) (by omega)
      · rw [predecessors, he.copy_preds c hc']
        split
        · intro hmem
          have hmem := mem_singleton.1 hmem
          split at hmem
          · rw [← hmem] at hhome_lt
            exact absurd hhome_lt (Nat.lt_irrefl _)
          · rename_i hne
            exact hne hmem
        · intro hmem
          obtain ⟨d, hd, heq⟩ := mem_map.1 hmem
          rw [← heq] at hle
          exact absurd (he.block_new d (he.body.live_pred hd)).1 (Nat.not_lt.2 hle)
  · rw [he.predecessors_of_gone hlive, count_nil, eq_comm, count_eq_zero]
    exact fun hmem => hlive (he.live_old (he.caller.live_of_mem_successors hmem))

lemma edges_home (b : BlockId) :
    (g.predecessors b).count (f.insn call).block = [r.block callee.entry].count b := by
  have hlt := he.home_lt
  have hentry := (he.block_new _ he.body.entry_live).1
  rw [count_singleton]
  by_cases hlive : g.LiveBlock b
  · rcases he.cases_target hlive with hb | rfl | ⟨c, hc', rfl⟩
    · have hb_lt := f.lt_blocks_of_live hb
      rw [if_neg (by simpa using fun heq : r.block callee.entry = b => absurd hentry (by rw [heq]; omega)),
        he.predecessors_old hb, count_eq_zero]
      intro hmem
      obtain ⟨p, -, heq⟩ := mem_map.1 hmem
      split at heq
      · rw [← heq] at hlt
        exact absurd hlt (Nat.lt_irrefl _)
      · rename_i hne
        exact hne heq
    · rw [if_neg (by
        simpa using fun heq : r.block callee.entry = ⟨f.blocks.size⟩ =>
          absurd hentry (by rw [heq]; exact Nat.lt_irrefl _)), he.predecessors_tail, count_eq_zero]
      exact fun hmem => absurd (he.index_of_return hmem) (by omega)
    · rw [predecessors, he.copy_preds c hc']
      by_cases hce : c = callee.entry
      · subst hce
        simp
      · rw [if_neg hce, if_neg (by
          simpa using fun heq => hce (he.block_inj _ _ he.body.entry_live hc' heq).symm), count_eq_zero]
        intro hmem
        obtain ⟨d, hd, heq⟩ := mem_map.1 hmem
        exact absurd (he.block_new d (he.body.live_pred hd)).1 (by rw [heq]; omega)
  · rw [he.predecessors_of_gone hlive, count_nil, if_neg]
    intro heq
    rw [← eq_of_beq heq] at hlive
    exact hlive (he.copy _ he.body.entry_live).live

lemma edges_copy (hd : callee.LiveBlock d) (b : BlockId) :
    (g.predecessors b).count (r.block d) = (g.successors (r.block d)).count b := by
  have hnew := (he.block_new d hd).1
  by_cases hlive : g.LiveBlock b
  · rcases he.cases_target hlive with hb | rfl | ⟨c, hc', rfl⟩
    · have hb_lt := f.lt_blocks_of_live hb
      have hnone : (g.predecessors b).count (r.block d) = 0 := by
        rw [he.predecessors_old hb, count_eq_zero]
        intro hmem
        obtain ⟨p, hp, heq⟩ := mem_map.1 hmem
        have hp_lt := f.lt_blocks_of_live (he.caller.live_pred hp)
        rw [← heq] at hnew
        split at hnew
        · exact absurd hnew (Nat.lt_irrefl _)
        · omega
      rw [hnone, eq_comm, count_eq_zero]
      rcases he.successors_cases hd with ⟨-, -, hsucc⟩ | ⟨-, hsucc⟩ <;> rw [hsucc]
      · intro hmem
        rw [mem_singleton.1 hmem] at hb_lt
        exact absurd hb_lt (Nat.lt_irrefl _)
      · intro hmem
        obtain ⟨c, hc', heq⟩ := mem_map.1 hmem
        exact absurd (he.block_new c (he.body.live_of_mem_successors hc')).1 (by rw [heq]; omega)
    · rw [he.predecessors_tail]
      rcases he.successors_cases hd with ⟨hmem, -, hsucc⟩ | ⟨hmem, hsucc⟩ <;>
        rw [hsucc]
      · rw [count_eq_one_of_mem he.distinct hmem, count_singleton_self]
      · rw [count_eq_zero.2 hmem, eq_comm, count_eq_zero]
        intro hmem
        obtain ⟨c, hc', heq⟩ := mem_map.1 hmem
        exact absurd (he.block_new c (he.body.live_of_mem_successors hc')).1
          (by rw [heq]; exact Nat.lt_irrefl _)
    · rw [he.count_copy hc' hd]
      rcases he.successors_cases hd with ⟨-, hnone, hsucc⟩ | ⟨-, hsucc⟩ <;>
        rw [hsucc]
      · rw [hnone, count_nil, count_singleton, if_neg]
        intro heq
        exact absurd (he.block_new c hc').1 (by rw [← eq_of_beq heq]; exact Nat.lt_irrefl _)
      · exact (count_map_of_inj fun q hq heq =>
          he.block_inj q c (he.body.live_of_mem_successors hq) hc' heq).symm
  · rw [he.predecessors_of_gone hlive, count_nil, eq_comm, count_eq_zero]
    rcases he.successors_cases hd with ⟨-, -, hsucc⟩ | ⟨-, hsucc⟩ <;> rw [hsucc]
    · intro hmem
      rw [mem_singleton.1 hmem] at hlive
      exact hlive he.live_tail
    · intro hmem
      obtain ⟨c, hc', rfl⟩ := mem_map.1 hmem
      exact hlive (he.copy c (he.body.live_of_mem_successors hc')).live

lemma live_of_pred (hp : p ∈ g.predecessors b) : g.LiveBlock p := by
  have hlive : g.LiveBlock b := by
    by_contra hgone
    rw [he.predecessors_of_gone hgone] at hp
    cases hp
  rcases he.cases_target hlive with hb | rfl | ⟨c, hc', rfl⟩
  · rw [he.predecessors_old hb] at hp
    obtain ⟨q, hq, rfl⟩ := mem_map.1 hp
    split
    · exact he.live_tail
    · exact he.live_old (he.caller.live_pred hq)
  · rw [he.predecessors_tail] at hp
    obtain ⟨q, hq, rfl⟩ := mem_map.1 hp
    obtain ⟨c, hlive, hfst, -⟩ := he.origin q hq
    rw [hfst]
    exact (he.copy c hlive).live
  · rw [predecessors, he.copy_preds c hc'] at hp
    split at hp
    · rw [mem_singleton.1 hp]
      exact he.live_old he.home_live
    · obtain ⟨d, hd, rfl⟩ := mem_map.1 hp
      exact (he.copy d (he.body.live_pred hd)).live

theorem edges (b p : BlockId) : (g.predecessors b).count p = (g.successors p).count b := by
  by_cases hlive : g.LiveBlock p
  · rcases he.cases_target hlive with hp | rfl | ⟨d, hd, rfl⟩
    · by_cases hhead : p = (f.insn call).block
      · subst hhead
        rw [he.edges_home, he.successors_home]
      · have hbehind := he.edges_behind hp b
        have hsucc := he.successors_behind hp
        rw [if_neg hhead] at hbehind hsucc
        rw [hbehind, hsucc]
    · have hhead := he.home_live
      have hbehind := he.edges_behind hhead b
      have hsucc := he.successors_behind hhead
      rw [if_pos rfl] at hbehind hsucc
      rw [hbehind, hsucc]
    · exact he.edges_copy hd b
  · rw [successors_of_gone (he.orderly.gone p (by simpa using hlive)), count_nil, count_eq_zero]
    exact fun hmem => hlive (he.live_of_pred hmem)

/-! ## Terminators -/

lemma terminated (hlive : g.LiveBlock b) : ∃ front last, (g.block b).insns = front ++ [last] ∧
      (g.insn last).op.isTerminator ∧ ∀ i ∈ front, (g.insn i).op.isTerminator = false := by
  have hsame : ∀ i b, i ∈ (f.block b).insns → (g.insn i).op = (f.insn i).op := fun i b hi =>
    (he.insn i (f.lt_insns_of_live ((he.caller.exact.insns_iff b i).1 hi).1)).1
  obtain ⟨front', last, rfl, hlast, hfront⟩ := he.caller.ends_behind he.home he.op
  rcases he.cases_target hlive with hb | rfl | ⟨c, hc', rfl⟩
  · by_cases hbc : b = (f.insn call).block
    · subst hbc
      refine ⟨before ++ [call], jump, ?_, by rw [he.jumps.2.2]; rfl, fun i hi => ?_⟩
      · rw [he.block _ he.home_lt, if_pos rfl]
        simp
      · have hmem : i ∈ before ++ call :: front' := by
          rcases mem_append.1 hi with hi | hi
          · exact mem_append_left _ hi
          · exact mem_append_right _ (mem_singleton.1 hi ▸ mem_cons_self)
        have hlisted : i ∈ (f.block (f.insn call).block).insns := by
          rw [he.home, ← cons_append, ← append_assoc]
          exact mem_append_left _ hmem
        rw [hsame i _ hlisted]
        exact hfront i hmem
    · obtain ⟨front, last, hlist, hlast, hfront⟩ := he.caller.terminated b hb
      refine ⟨front, last, ?_, ?_, fun i hi => ?_⟩
      · rw [he.block b (f.lt_blocks_of_live hb), if_neg hbc, hlist]
      · rw [hsame last b (by simp [hlist]), hlast]
      · rw [hsame i b (by simp [hlist, hi]), hfront i hi]
  · refine ⟨front', last, by rw [he.tail], ?_, fun i hi => ?_⟩
    · rw [hsame last (f.insn call).block (by simp [he.home]), hlast]
    · rw [hsame i (f.insn call).block (by simp [he.home, hi]), hfront i (by simp [hi])]
  · obtain ⟨front, last, hlist, hlast, hfront⟩ := he.body.terminated c hc'
    have htranscribed := (he.copy c hc').insns
    rw [hlist] at htranscribed
    by_cases hret : ∃ u, (callee.insn last).op = .ret u
    · obtain ⟨u, hret⟩ := hret
      obtain ⟨copied, out, hjs, ⟨j, rfl, -, hgoto, -⟩, hcopied, -⟩ := htranscribed.exits hret hfront
      exact ⟨copied, j, hjs, by rw [hgoto]; rfl, hcopied⟩
    · obtain ⟨copied, j, hjs, hopj, hcopied⟩ := htranscribed.ends hlast (fun u hu => hret ⟨u, hu⟩) hfront
      exact ⟨copied, j, hjs, by
        rw [hopj, Op.isTerminator_mapTargets, Op.isTerminator_mapOperands, hlast], hcopied⟩

end Opened

end Dissolve.Inline
