import Dissolve.Proofs.Semantics.Copies
import Dissolve.Proofs.Ssa.Renumber
import Dissolve.Proofs.Ssa.Rewording

/-!
# Proofs.Semantics.Cleanup — cleaning up does not change what a function shows

Trivial phis are copies of the values they merge, dead phis are read by nothing that is asked, and
compacting renames. So a function shows the same before and after `cleanUpPhis` and `compact`
(`shows_cleanUpPhis`, `shows_compact`).
-/

namespace Dissolve

open List

variable {b : BlockId} {n : Nat}

namespace Ssa.Function.WellFormed

variable {f : Ssa.Function} {before rest : List InsnId} {i : InsnId} (h : f.WellFormed)
  (hb : (f.block b).insns = before ++ i :: rest)
include h hb

lemma rest_of_terminator (hterm : (f.insn i).op.isTerminator) : rest = [] :=
  Terminated.eq_nil (h.terminated b (h.orderly.live_of_split hb)) hb hterm

lemma ends_behind (hop : (f.insn i).op.isTerminator = false) : ∃ front last,
    rest = front ++ [last] ∧ (f.insn last).op.isTerminator ∧
      ∀ j ∈ before ++ i :: front, (f.insn j).op.isTerminator = false := by
  obtain ⟨front, last, hinsns, hlast, hfront⟩ := h.terminated b (h.orderly.live_of_split hb)
  rw [hb] at hinsns
  rcases eq_nil_or_concat rest with rfl | ⟨front', last', rfl⟩
  · rw [(cons.inj (append_inj' hinsns rfl).2).1, hlast] at hop
    cases hop
  · rw [concat_eq_append, ← cons_append, ← append_assoc] at hinsns
    obtain ⟨hfirst, hrest⟩ := append_inj' hinsns rfl
    obtain rfl := (cons.inj hrest).1
    exact ⟨front', last', concat_eq_append, hlast, hfirst ▸ hfront⟩

end Ssa.Function.WellFormed

namespace Semantics

open Machine (Ending)
open Ssa (Function Op)
open Ssa.Function

variable {D : Type} {f g : Function} {params : List D} {trace : List (Question D × Answer D)}
  {ending : Option (Ending D)} {env env' : ValueId → D}

/-! ## Functions with the same blocks -/

lemma assign_congr {dest : Option ValueId} {d : D} {v : ValueId} (h : env' v = env v) :
    assign env' dest d v = assign env dest d v := by
  cases dest with
  | none => exact h
  | some w =>
    by_cases hvw : v = w
    · rw [hvw, assign, assign, Function.update_self, Function.update_self]
    · rw [assign, assign, Function.update_of_ne hvw, Function.update_of_ne hvw, h]

/-- Two functions have the same instructions in the same blocks, with operands renamed by `value`.
`Q b before env env'` says that the contents behind `before` in block `b` correspond. -/
structure Retells (f g : Function) (value : ValueId → ValueId)
    (Q : BlockId → List InsnId → (ValueId → D) → (ValueId → D) → Prop) : Prop where
  block : ∀ b, (g.block b).insns = (f.block b).insns ∧ (g.block b).preds = (f.block b).preds ∧
    (g.block b).handlers = (f.block b).handlers
  op : ∀ i, (g.insn i).op = (f.insn i).op.mapOperands value
  dest : ∀ i, (g.insn i).dest = (f.insn i).dest
  fixed : ∀ i v, (f.insn i).dest = some v → value v = v
  operands : ∀ {b before i rest env env'}, Q b before env env' →
    (f.block b).insns = before ++ i :: rest → ∀ v ∈ (f.insn i).op.operands, env' (value v) = env v
  pass : ∀ {b before i rest env env'}, Q b before env env' →
    (f.block b).insns = before ++ i :: rest → Q b (before ++ [i]) env env'
  assign : ∀ {b before i rest env env' t}, f.Trail (b :: t) → Q b before env env' →
    (f.block b).insns = before ++ i :: rest → ∀ d,
    Q b (before ++ [i]) (Semantics.assign env (f.insn i).dest d)
      (Semantics.assign env' (f.insn i).dest d)
  edge : ∀ {b before env env' t c slot}, f.Trail (b :: t) → Q b before env env' →
    (f.predecessors c)[slot]? = some b → Q c [] (merged f c slot env) (merged g c slot env')

namespace Retells

variable {value : ValueId → ValueId}
  {Q : BlockId → List InsnId → (ValueId → D) → (ValueId → D) → Prop}

section

variable (h : Retells f g value Q)
include h

lemma successors (b : BlockId) : g.successors b = f.successors b :=
  successors_congr (h.block b).1 (h.block b).2.2 (fun i => by rw [h.op, Op.isTerminator_mapOperands])
    fun i => by rw [h.op, Op.targets_mapOperands]

lemma lockstep (hf : f.WellFormed) :
    Lockstep f g id id value fun b before env env' =>
      (∃ t, f.Trail (b :: t)) ∧ Q b before env env' := by
  refine ⟨?_, ?_, ?_, ?_, ?_, ?_, ?_, ?_, ?_⟩
  · intro b before i rest env env' _ _
    rw [Op.mapTargets_id]
    exact h.op i
  · intro b before i rest env env' _ _
    rw [id, h.dest]
    cases hdest : (f.insn i).dest with
    | none => rfl
    | some v => rw [Option.map_some, h.fixed i v hdest]
  · rintro b before i rest env env' ⟨-, hQ⟩ hb
    exact h.operands hQ hb
  · intro b before env env' _
    rw [id, (h.block b).2.2]
  · intro b before env env' _
    rw [id, normalSuccessors_congr (h.block b).1 (fun i => by rw [h.op, Op.isTerminator_mapOperands])
      fun i => by rw [h.op, Op.targets_mapOperands]]
  · intro b before i rest env env' _ hb hterm
    exact hf.rest_of_terminator hb hterm
  · rintro b before i rest env env' ⟨ht, hQ⟩ hb _
    exact ⟨ht, h.pass hQ hb⟩
  · rintro b before i rest env env' ⟨⟨t, ht⟩, hQ⟩ hb _ d
    have hmap : (f.insn i).dest.map value = (f.insn i).dest := by
      cases hdest : (f.insn i).dest with
      | none => rfl
      | some v => rw [Option.map_some, h.fixed i v hdest]
    rw [hmap]
    exact ⟨⟨t, ht⟩, h.assign ht hQ hb d⟩
  · rintro b before i rest env env' n ⟨⟨t, ht⟩, hQ⟩ hb _
    rcases follow_map (b := b) hf id id (by rw [id, h.successors, map_id]) (fun _ _ _ _ heq => heq)
        (fun c _ => by rw [map_id]; exact (h.block c).2.1) (fun _ _ heq => heq) n env env' with
      ⟨hstuck, hstuck'⟩ | ⟨c, slot, hslot, hrun, hrun'⟩
    · rw [hstuck, hstuck']
      exact .ended _
    · rw [hrun, hrun', id, (h.block c).1]
      have hin : InStep f id id (fun b before env env' =>
          (∃ t, f.Trail (b :: t)) ∧ Q b before env env')
          (.running c (f.block c).insns (merged f c slot env))
          (.running c ((f.block c).insns.map id) (merged g c slot env')) :=
        .running (nil_append _).symm
          ⟨⟨b :: t, .step ht (mem_of_getElem? hslot)⟩, h.edge ht hQ hslot⟩
      rwa [map_id] at hin

lemma start_inStep (hQ : Q f.entry [] env env') :
    InStep f id id (fun b before env env' => (∃ t, f.Trail (b :: t)) ∧ Q b before env env')
      (start f env) (start g env') := by
  rw [start, start, (h.block _).1]
  have hin : InStep f id id (fun b before env env' => (∃ t, f.Trail (b :: t)) ∧ Q b before env env')
      (.running f.entry (f.block f.entry).insns env)
      (.running f.entry ((f.block f.entry).insns.map id) env') :=
    .running (nil_append _).symm ⟨⟨[], .start⟩, hQ⟩
  rwa [map_id] at hin

lemma shows_iff (hf : f.WellFormed) (hQ : Q f.entry [] env env') :
    Shows (next f params) (start f env) trace ending ↔
      Shows (next g params) (start g env') trace ending :=
  (h.lockstep hf).shows_iff (h.start_inStep hQ)

end

end Retells

/-! ## Trivial phis -/

section Collapse

variable {q : PhiId} {same : ValueId}

lemma precedes_of_trivial (h : f.WellFormed) (hq : f.LivePhi q)
    (htriv : (f.phi q).trivialOperand? = some same) : Precedes f same (f.phi q).value := by
  have hdef := (h.exact.definition_iff (f.phi q).value (.phi q)).2 ⟨hq, rfl⟩
  refine ⟨(Ssa.Phi.trivialOperand?_eq_some_iff.1 htriv).1, ?_, ?_⟩
  · intro p hp t ht
    obtain rfl : q = p := Site.phi.inj (Option.some.inj (hdef.symm.trans hp))
    exact h.flow.merged_before hq (fun h => h) htriv ht
  · intro k hk
    exact Site.noConfusion (Option.some.inj (hdef.symm.trans hk))

lemma availBefore_of_phi (hf : f.Exact) (hq : f.LivePhi q) (h : f.AvailEnd (f.phi q).value b)
    (before : List InsnId) : f.AvailBefore (f.phi q).value b before := by
  refine .inr fun t ht => ?_
  have hphi := hf.isPhiOf_phi hq
  obtain ⟨c, hc, hdef⟩ := h t ht
  rcases mem_cons.1 hc with rfl | hc
  · rw [hphi.definingBlock?] at hdef
    exact .inr (Option.some.inj hdef ▸ hphi)
  · exact .inl ⟨c, hc, hdef⟩

section

variable (h : f.WellFormed) (hq : f.LivePhi q)
  (htriv : (f.phi q).trivialOperand? = some same)
include h hq htriv

lemma retells_collapsePhi :
    Retells (D := D) f (f.collapsePhi q same) (redirect (f.phi q).value same)
      fun b before env env' => (∀ v, v ≠ (f.phi q).value → env' v = env v) ∧
        Copied f (f.phi q).value same b before env := by
  have hf := h.exact
  have hpre := precedes_of_trivial h hq htriv
  have hdef := (hf.definition_iff (f.phi q).value (.phi q)).2 ⟨hq, rfl⟩
  have hdest : ∀ i, (f.insn i).dest ≠ some (f.phi q).value := by
    intro i hi
    have := hf.defines_unique (v := (f.phi q).value) (s := .insn i) (t := .phi q) hi ⟨hq, rfl⟩
    exact Site.noConfusion this
  have hblock := fun b => hf.block_collapsePhi (p := q) (h.flow.same_lt htriv) b
  -- reading the merged value gives what the phi holds
  have hread : ∀ {b before} {env env' : ValueId → D}, (∀ v, v ≠ (f.phi q).value → env' v = env v) →
      Copied f (f.phi q).value same b before env → ∀ v,
      (v = (f.phi q).value → f.AvailBefore v b before) →
      env' (redirect (f.phi q).value same v) = env v := by
    intro b before env env' henv hcopied v hav
    by_cases hv : v = (f.phi q).value
    · subst hv
      rw [redirect_old, henv _ hpre.ne, hcopied (hav rfl)]
    · rw [redirect_of_ne hv, henv v hv]
  refine ⟨?_, ?_, ?_, ?_, ?_, ?_, ?_, ?_⟩
  · intro b
    rw [hblock]
    exact ⟨rfl, rfl, rfl⟩
  · intro i
    rw [hf.insn_collapsePhi, redirectInsn]
  · intro i
    rw [hf.insn_collapsePhi, redirectInsn]
  · intro i v hv
    exact redirect_of_ne fun heq => hdest i (heq ▸ hv)
  · rintro b before i rest env env' ⟨henv, hcopied⟩ hb v hv
    exact hread henv hcopied v fun _ => h.flow.insn_avail b before i rest hb v hv
  · rintro b before i rest env env' ⟨henv, hcopied⟩ hb
    exact ⟨henv, hcopied.pass (hdest i)⟩
  · rintro b before i rest env env' t ht ⟨henv, hcopied⟩ hb d
    exact ⟨fun v hv => assign_congr (henv v hv),
      hcopied.assign hpre hf ht hb fun hd => absurd hd (hdest i)⟩
  · rintro b before env env' t c slot ht ⟨henv, hcopied⟩ hslot
    have hend := fun hav => availBefore_of_phi hf hq (b := b) hav before
    refine ⟨fun v hv => ?_, hcopied.merged hpre h.flow ht hslot hend ?_⟩
    · have hphi : ∀ p, p ≠ q → (f.collapsePhi q same).phi p =
          redirectPhi (f.phi q).value same (f.phi p) := fun p hp => by
        rw [hf.phi_collapsePhi hq, if_neg hp]
      refine merged_eq_merged h.flow hslot (fun p hp hvalue => ?_) (fun p hp hvalue => ?_)
        (fun _ => henv v hv) fun p _ _ u _ hav => hread henv hcopied u fun heq => ?_
      · have hne : p ≠ q := fun heq => hv (by rw [← hvalue, heq])
        exact ⟨p, by simp [hblock, hp, hne], by rw [hphi p hne]; exact hvalue⟩
      · obtain ⟨hmem, hne⟩ : p ∈ (f.block c).phis ∧ p ≠ q := by simpa [hblock] using hp
        rw [hphi p hne] at hvalue ⊢
        exact ⟨p, hmem, hvalue, rfl⟩
      · rw [heq] at hav ⊢
        exact hend hav
    · intro p hp v hmem
      obtain rfl : q = p := Site.phi.inj (Option.some.inj (hdef.symm.trans hp))
      exact ((Ssa.Phi.trivialOperand?_eq_some_iff.1 htriv).2.2 v hmem).symm

lemma copied_at_entry (env : ValueId → D) : Copied f (f.phi q).value same f.entry [] env := by
  -- nothing is available at the entry
  rintro (⟨j, hj, -⟩ | hav)
  · cases hj
  · rcases hav [] .start with ⟨c, hc, -⟩ | hphi
    · cases hc
    · obtain ⟨p, hp, hentry⟩ := hphi
      have hdef := (h.exact.definition_iff (f.phi q).value (.phi q)).2 ⟨hq, rfl⟩
      obtain rfl : q = p := Site.phi.inj (Option.some.inj (hdef.symm.trans hp))
      have harity := h.flow.arity q hq fun h => h
      rw [hentry, h.flow.entry_preds, length_nil, length_eq_zero_iff] at harity
      have hmem := (Ssa.Phi.trivialOperand?_eq_some_iff.1 htriv).2.1
      rw [harity] at hmem
      cases hmem

end

lemma shows_collapsed (hc : Collapsed f g) (h : f.WellFormed) (env : ValueId → D) :
    Shows (next f params) (start f env) trace ending ↔
      Shows (next g params) (start g env) trace ending := by
  induction hc with
  | refl => rfl
  | @step f g q same hq htriv _ ih =>
    exact Iff.trans ((retells_collapsePhi h hq htriv).shows_iff h
      ⟨fun _ _ => rfl, copied_at_entry h hq htriv env⟩) (ih (h.collapsePhi hq htriv))

end Collapse

/-! ## Dead phis -/

lemma retells_drops {dead : List PhiId} (hd : f.Drops g dead) (h : f.WellFormed)
    (hdead : f.Unneeded dead) : Retells (D := D) f g id fun _ _ env env' =>
      ∀ v, (∀ p ∈ dead, (f.phi p).value ≠ v) → env' v = env v := by
  refine ⟨?_, ?_, ?_, ?_, ?_, ?_, ?_, ?_⟩
  · intro b
    rw [hd.block]
    exact ⟨rfl, rfl, rfl⟩
  · intro i
    rw [hd.insn]
    exact (Op.mapOperands_id _).symm
  · intro i
    rw [hd.insn]
  · intro i v _
    rfl
  · intro b before i rest env env' henv _ v hv
    refine henv v fun p hp heq => ?_
    obtain ⟨q, -, hq⟩ := hdead.readers p hp (.insn i) (heq ▸ hv)
    exact Site.noConfusion hq
  · intro b before i rest env env' henv _
    exact henv
  · intro b before i rest env env' t _ henv _ d v hv
    exact assign_congr (henv v hv)
  · intro b before env env' t c slot _ henv hslot v hv
    have hphi : ∀ p, p ∉ dead → g.phi p = f.phi p := fun p hp => by rw [hd.phi, if_neg hp]
    refine merged_eq_merged h.flow hslot (fun p hp hvalue => ?_) (fun p hp hvalue => ?_)
      (fun _ => henv v hv) fun p _ hvalue u hu _ => henv u fun q hq heq => ?_
    · have hnot : p ∉ dead := fun hmem => hv p hmem hvalue
      exact ⟨p, by simp [hd.block, hp, hnot], by rw [hphi p hnot, hvalue]⟩
    · obtain ⟨hmem, hnot⟩ : p ∈ (f.block c).phis ∧ p ∉ dead := by simpa [hd.block] using hp
      rw [hphi p hnot] at hvalue ⊢
      exact ⟨p, hmem, hvalue, (map_id _).symm⟩
    · obtain ⟨q', hq', hsite⟩ := hdead.readers q hq (.phi p) (heq ▸ hu)
      exact hv p (Site.phi.inj hsite ▸ hq') hvalue

/-- Cleaning up phis does not change what a function shows. -/
theorem shows_cleanUpPhis (h : f.WellFormed) (hrun : Ssa.cleanUpPhis.run f = .ok n g)
    (env : ValueId → D) :
    Shows (next f params) (start f env) trace ending ↔
      Shows (next g params) (start g env) trace ending := by
  obtain ⟨m, k, g', hrun', hcollapsed, hdrops, -⟩ := h.cleanUpPhis_run
  obtain ⟨rfl, rfl⟩ := EStateM.Result.ok.inj (hrun.symm.trans hrun')
  have hk := hcollapsed.wellFormed h
  exact (shows_collapsed hcollapsed h env).trans
    ((retells_drops hdrops hk hk.deadPhis_unneeded).shows_iff hk fun _ _ => rfl)

/-! ## Compacting -/

/-- What is shown does not depend on the record of definitions and users, nor on the lens. -/
lemma shows_congr (h : f.WellFormed) (hblock : ∀ b, g.block b = f.block b)
    (hinsn : ∀ i, g.insn i = f.insn i) (hphi : ∀ q, g.phi q = f.phi q) (env : ValueId → D) :
    Shows (next f params) (start f env) trace ending ↔
      Shows (next g params) (start g env) trace ending := by
  have hretells : Retells (D := D) f g id fun _ _ env env' => env' = env := by
    refine ⟨?_, ?_, ?_, ?_, ?_, ?_, ?_, ?_⟩
    · intro b
      rw [hblock]
      exact ⟨rfl, rfl, rfl⟩
    · intro i
      rw [hinsn]
      exact (Op.mapOperands_id _).symm
    · intro i
      rw [hinsn]
    · intro i v _
      rfl
    · rintro b before i rest env _ rfl _ v _
      rfl
    · rintro b before i rest env _ rfl _
      rfl
    · rintro b before i rest env _ t _ rfl _ d
      rfl
    · rintro b before env _ t c slot _ rfl _
      funext v
      simp only [merged, hblock, hphi]
  exact hretells.shows_iff h rfl

lemma lockstep_renumbered {r : Renumbering} (hr : f.Renumbered g r) (h : f.WellFormed) :
    Lockstep (D := D) f g r.block r.insn r.value fun b _ env env' =>
      f.LiveBlock b ∧
        ∀ v, (f.value v).definition.isSome → env' (r.value v) = env v := by
  have hf := h.exact
  have hinsn : ∀ {b before i rest}, (f.block b).insns = before ++ i :: rest →
      g.insn (r.insn i) = renumberInsn r (f.insn i) := by
    intro b before i rest hb
    exact hr.insn i (hf.of_split hb).1
  refine ⟨?_, ?_, ?_, ?_, ?_, ?_, ?_, ?_, ?_⟩
  · intro b before i rest env env' _ hb
    rw [hinsn hb, renumberInsn]
  · intro b before i rest env env' _ hb
    rw [hinsn hb, renumberInsn]
  · rintro b before i rest env env' ⟨-, henv⟩ hb v hv
    exact henv v (h.flow.defined v (.insn i) hv)
  · rintro b before env env' ⟨hlive, -⟩
    rw [hr.block b hlive, renumberBlock, length_map]
  · rintro b before env env' ⟨hlive, -⟩
    rw [hr.normalSuccessors_eq h hlive, length_map]
  · intro b before i rest env env' _ hb hterm
    exact h.rest_of_terminator hb hterm
  · intro b before i rest env env' hP _ _
    exact hP
  · rintro b before i rest env env' ⟨hlive, henv⟩ hb _ d
    refine ⟨hlive, fun v hv => ?_⟩
    cases hdest : (f.insn i).dest with
    | none => exact henv v hv
    | some w =>
      have hw := (hf.definition_iff w (.insn i)).2 hdest
      rw [Option.map_some, Semantics.assign, Semantics.assign]
      by_cases hvw : v = w
      · rw [hvw, Function.update_self, Function.update_self]
      · rw [Function.update_of_ne hvw, Function.update_of_ne, henv v hv]
        intro heq
        exact hvw (hr.value_inj v w hv (by simp [hw]) heq)
  · rintro b before i rest env env' n ⟨hlive, henv⟩ hb _
    rcases follow_map h r.block r.block (hr.successors_eq h hlive) hr.block_inj
        (fun c hmem => hr.preds_eq (h.live_of_pred hmem))
        (fun p hp => hr.block_inj p b hp hlive) n env env' with
      ⟨hstuck, hstuck'⟩ | ⟨c, slot, hslot, hrun, hrun'⟩
    · rw [hstuck, hstuck']
      exact .ended _
    · have hlivec := h.live_of_pred (mem_of_getElem? hslot)
      rw [hrun, hrun', hr.insns_eq hlivec]
      refine .running (nil_append _).symm ⟨hlivec, fun v hv => ?_⟩
      have hphi : ∀ p ∈ (f.block c).phis, g.phi (r.phi p) = renumberPhi r (f.phi p) := fun p hp =>
        hr.phi p ((hf.phis_iff c p).1 hp).1
      have hphis : (g.block (r.block c)).phis = (f.block c).phis.map r.phi := by
        rw [hr.block c hlivec, renumberBlock]
      refine merged_eq_merged h.flow hslot (fun p hp hvalue => ?_) (fun p hp hvalue => ?_)
        (fun _ => henv v hv) fun p hp _ u hu _ => henv u (h.flow.defined u (.phi p) hu)
      · exact ⟨r.phi p, hphis ▸ mem_map_of_mem hp, by rw [hphi p hp, renumberPhi, hvalue]⟩
      · obtain ⟨q, hq, rfl⟩ := mem_map.1 (hphis ▸ hp)
        have hdef := (hf.definition_iff _ (.phi q)).2 ⟨((hf.phis_iff c q).1 hq).1, rfl⟩
        rw [hphi q hq, renumberPhi] at hvalue ⊢
        exact ⟨q, hq, hr.value_inj _ v (by simp [hdef]) hv hvalue, rfl⟩

theorem shows_compact (h : f.WellFormed) (hrun : Ssa.compact.run f = .ok () g) :
    ∃ r : ValueId → ValueId, ∀ (D : Type) (params : List D) (env : ValueId → D) trace ending,
      Shows (next f params) (start f (env ∘ r)) trace ending ↔
        Shows (next g params) (start g env) trace ending := by
  obtain ⟨g', r, hrun', hr, -⟩ := h.compact_run
  obtain ⟨-, rfl⟩ := EStateM.Result.ok.inj (hrun.symm.trans hrun')
  refine ⟨r.value, fun D params env trace ending => (lockstep_renumbered hr h).shows_iff ?_⟩
  rw [start, start, ← hr.entry, hr.insns_eq h.entry_live]
  exact .running (nil_append _).symm ⟨h.entry_live, fun _ _ => rfl⟩

end Semantics

end Dissolve
