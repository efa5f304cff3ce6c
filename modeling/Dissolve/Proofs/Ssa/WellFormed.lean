import Dissolve.Proofs.Ssa.Rules

/-!
# Proofs.Ssa.WellFormed — functions that keep the rules of SSA form

`Function.WellFormed` states the rules of SSA form as properties that edits can be followed through:
exact bookkeeping, terminated blocks, predecessor lists that are the incoming edges, and availability
of every use along every trail. A well-formed function passes `verify` (`WellFormed.verify`), and an
orderly function that passes is well formed (`Orderly.wellFormed_of_verify`): a route along the edges
and a trail along the recorded predecessors are then the same.
-/

namespace Dissolve

open List

variable {b p : BlockId} {i : InsnId} {l : List BlockId}

namespace Ssa.Function

/-- The rules of SSA form. -/
structure WellFormed (f : Function) : Prop where
  flow : f.Flow fun _ => False
  entry_live : (f.block f.entry).removed = false
  gone : ∀ b, (f.block b).removed = true → f.block b = Block.gone
  terminated : ∀ b, (f.block b).removed = false → ∃ front last,
    (f.block b).insns = front ++ [last] ∧ (f.insn last).op.isTerminator = true ∧
      ∀ i ∈ front, (f.insn i).op.isTerminator = false
  edges : ∀ b p, (f.predecessors b).count p = (f.successors p).count b

lemma successors_of_gone {f : Function} (h : f.block b = Block.gone) : f.successors b = [] := by
  simp [successors, normalSuccessors, terminator?, h, Block.gone]

namespace WellFormed

variable {f : Function}

section

variable (h : f.WellFormed)
include h

lemma exact : f.Exact :=
  h.flow.exact

lemma orderly : f.Orderly :=
  ⟨h.exact, h.gone⟩

lemma mem_insnIds : i ∈ f.insnIds ↔ f.LiveInsn i :=
  h.orderly.mem_insnIds

lemma mem_phiIds {p : PhiId} : p ∈ f.phiIds ↔ f.LivePhi p :=
  h.orderly.mem_phiIds

lemma nodup_insnIds : f.insnIds.Nodup :=
  h.exact.nodup_insnIds

lemma nodup_phiIds : f.phiIds.Nodup :=
  h.exact.nodup_phiIds

lemma live_of_pred (hp : p ∈ f.predecessors b) : f.LiveBlock b := by
  by_contra hb
  rw [predecessors, h.gone b (by simpa using hb)] at hp
  simp [Block.gone] at hp

lemma mem_successors_iff : b ∈ f.successors p ↔ p ∈ f.predecessors b := by
  rw [← count_pos_iff, ← h.edges, count_pos_iff]

lemma live_pred (hp : p ∈ f.predecessors b) : f.LiveBlock p := by
  by_contra hgone
  have hsucc := h.mem_successors_iff.2 hp
  rw [successors_of_gone (h.gone p (by simpa using hgone))] at hsucc
  cases hsucc

lemma live_of_mem_successors (hb : b ∈ f.successors p) : f.LiveBlock b :=
  h.live_of_pred (h.mem_successors_iff.1 hb)

lemma live_of_trail {t : List BlockId} (ht : f.Trail (b :: t)) : f.LiveBlock b := by
  cases ht with
  | start => exact h.entry_live
  | step _ edge => exact h.live_of_pred edge

lemma framed : f.Framed where
  exact := h.exact
  entry_live := h.entry_live
  entry_preds := h.flow.entry_preds
  terminated := h.terminated
  targets b _ c hc := h.live_of_pred (h.mem_successors_iff.1 hc)
  arity b _ p hp := by
    obtain ⟨hlive, hblock⟩ := (h.exact.phis_iff b p).1 hp
    exact hblock ▸ h.flow.arity p hlive not_false
  edges b _ p := by
    rw [edgeCount, h.edges]
    split
    · rename_i hp
      simp [successors_of_gone (h.gone p hp)]
    · rfl

lemma route_iff_trail : f.Route l ↔ f.Trail l := by
  constructor
  · intro hroute
    induction hroute with
    | start => exact .start
    | step _ edge ih => exact .step ih (h.mem_successors_iff.1 edge)
  · intro htrail
    induction htrail with
    | start => exact .start
    | step _ edge ih => exact .step ih (h.mem_successors_iff.2 edge)

lemma preceded : f.Preceded where
  insn_defined i _ v hv := by
    obtain ⟨s, hs⟩ := Option.isSome_iff_exists.1 (h.flow.defined v (.insn i) hv)
    exact ⟨s, (h.exact.definition_iff v s).1 hs⟩
  phi_defined p _ v hv := by
    obtain ⟨s, hs⟩ := Option.isSome_iff_exists.1 (h.flow.defined v (.phi p) hv)
    exact ⟨s, (h.exact.definition_iff v s).1 hs⟩
  insn_uses b _ before i after hlist v hv t ht := by
    simp only [h.exact.phi_mem_iff, h.exact.definedIn_iff]
    rcases h.flow.insn_avail b before i after hlist v hv with hbefore | hstart
    · exact .inl hbefore
    · rcases hstart t (h.route_iff_trail.1 ht) with hearlier | hphi
      · exact .inr (.inr hearlier)
      · exact .inr (.inl hphi)
  phi_uses b _ p hp j v pred hv hpred t ht := by
    simp only [h.exact.definedIn_iff]
    have hblock := ((h.exact.phis_iff b p).1 hp).2
    exact h.flow.phi_avail p j v pred hv (hblock ▸ hpred) t (h.route_iff_trail.1 ht)

/-- A well-formed function passes the check. -/
theorem verify : verify f = .ok () :=
  h.framed.verify_iff_rest.2 (h.framed.preceded_iff.1 h.preceded)

end

end WellFormed

namespace Orderly

variable {f : Function}

lemma live_block_of_mem (h : f.Orderly) (hi : i ∈ (f.block b).insns) : f.LiveBlock b := by
  obtain ⟨hlive, rfl⟩ := (h.exact.insns_iff b i).1 hi
  exact h.live_block_of_insn hlive

lemma live_of_split (h : f.Orderly) {before after : List InsnId}
    (hb : (f.block b).insns = before ++ i :: after) : f.LiveBlock b :=
  h.live_block_of_mem (i := i) (by simp [hb])

section

variable (h : f.Orderly) (hframed : f.Framed)
include h hframed

lemma edges_of_framed (b p : BlockId) : (f.predecessors b).count p = (f.successors p).count b := by
  by_cases hp : (f.block p).removed = true
  · rw [successors_of_gone (h.gone p hp), count_nil]
    by_cases hb : (f.block b).removed = true
    · rw [predecessors, h.gone b hb]
      rfl
    · rw [hframed.edges b (by simpa using hb), edgeCount, if_pos hp]
  · by_cases hb : (f.block b).removed = true
    · have hnot : b ∉ f.successors p := fun hmem =>
        absurd hb (by simp [hframed.targets p (by simpa using hp) b hmem])
      rw [predecessors, h.gone b hb, count_eq_zero.2 hnot]
      rfl
    · rw [hframed.edges b (by simpa using hb), edgeCount, if_neg hp]

lemma route_of_trail (hl : f.Trail l) : f.Route l := by
  induction hl with
  | start => exact .start
  | step _ edge ih =>
    refine .step ih ?_
    rw [← count_pos_iff, ← h.edges_of_framed hframed, count_pos_iff]
    exact edge

lemma flow_of_preceded (hprec : f.Preceded) : f.Flow fun _ => False := by
  have hexact := h.exact
  refine ⟨hexact, hframed.entry_preds, fun q hq => hq.elim, ?_, ?_, ?_, ?_⟩
  · exact fun p hp _ =>
      hframed.arity _ (h.live_block_of_phi hp) p ((hexact.phis_iff _ p).2 ⟨hp, rfl⟩)
  · intro p j v pred hv hpred t ht
    have hlive := hexact.live_of_reads_phi (mem_of_getElem? hv)
    have hend := hprec.phi_uses _ (h.live_block_of_phi hlive) p
      ((hexact.phis_iff _ p).2 ⟨hlive, rfl⟩) j v pred hv hpred t (h.route_of_trail hframed ht)
    simpa only [hexact.definedIn_iff] using hend
  · intro b before i after hlist v hv
    have hmem : i ∈ (f.block b).insns := by simp [hlist]
    have huse := hprec.insn_uses b (h.live_block_of_mem hmem) before i after hlist v hv
    by_cases hbefore : ∃ j ∈ before, (f.insn j).dest = some v
    · exact .inl hbefore
    · refine .inr fun t ht => ?_
      have hcases := (huse t (h.route_of_trail hframed ht)).resolve_left hbefore
      simp only [hexact.phi_mem_iff, hexact.definedIn_iff] at hcases
      exact hcases.symm
  · intro v s hr
    have hdefined : ∃ s, f.Defines v s := by
      cases s with
      | insn i => exact hprec.insn_defined i (h.mem_insnIds.2 (hexact.live_of_reads_insn hr)) v hr
      | phi p => exact hprec.phi_defined p (h.mem_phiIds.2 (hexact.live_of_reads_phi hr)) v hr
    obtain ⟨s', hs'⟩ := hdefined
    exact Option.isSome_iff_exists.2 ⟨s', (hexact.definition_iff v s').2 hs'⟩

end

/-- An orderly function that passes the check is well formed. -/
theorem wellFormed_of_verify (h : f.Orderly) (hverify : Ssa.verify f = .ok ()) : f.WellFormed := by
  have hframed := h.exact.framed_of_verify hverify
  have hprec := hframed.preceded_iff.2 (hframed.verify_iff_rest.1 hverify)
  exact ⟨h.flow_of_preceded hframed hprec, hframed.entry_live, h.gone, hframed.terminated,
    h.edges_of_framed hframed⟩

end Orderly

end Ssa.Function

end Dissolve
