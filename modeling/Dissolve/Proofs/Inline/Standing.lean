import Dissolve.Proofs.Inline.Reconstruction
import Dissolve.Proofs.Inline.Regularity

/-!
# Proofs.Inline.Standing — an allocation while calls on it are replaced

A call is replaced in two stages: copies of the callee are added, which leaves the instructions of the
caller as they are, and then the call and what is no longer reached are taken out. The second stage
adds no definition and takes an operand away from no instruction that stays, the result of the call
apart (`Function.Sheds`). So the allocation of an instance either stands as it did, or its value is
defined nowhere and, as the function is well formed, read nowhere either (`standing_inlineCall`).
-/

namespace Dissolve

open List

namespace Ssa.Function

variable {f g h : Function} {i : InsnId} {v : ValueId} {root : TypeRef} {done : Reconstruction}

lemma lt_of_reads (h : f.Reads v (.insn i)) : f.HasInsn i :=
  f.lt_insns_of_op fun hop => by simp [Reads, hop, Op.operands] at h

/-- Nothing is there that was not, and the instructions that stay read what they read; the values that
satisfy `given` may be replaced. -/
structure Sheds (f g : Function) (given : ValueId → Prop) : Prop where
  defines : ∀ v s, g.Defines v s → f.Defines v s
  live : ∀ i, (g.insn i).removed = false → (f.insn i).removed = false
  reads : ∀ i, (g.insn i).removed = false → ∀ v, ¬given v → v ∈ (f.insn i).op.operands →
    v ∈ (g.insn i).op.operands

namespace Sheds

variable {given : ValueId → Prop}

lemma refl (f : Function) : f.Sheds f given :=
  ⟨fun _ _ hs => hs, fun _ hi => hi, fun _ _ _ _ hv => hv⟩

lemma trans (hfg : f.Sheds g given) (hgh : g.Sheds h given) : f.Sheds h given :=
  ⟨fun v s hs => hfg.defines v s (hgh.defines v s hs), fun i hi => hfg.live i (hgh.live i hi),
    fun i hi v hne hv => hgh.reads i hi v hne (hfg.reads i (hgh.live i hi) v hne hv)⟩

lemma replaceAllUses (hf : f.Exact) {old : ValueId} (hold : given old) (new : ValueId) :
    f.Sheds (f.replaceAllUses old new).2 given where
  defines v s hs := by
    cases s with
    | insn i =>
      rwa [Defines, hf.insn_replaceAllUses] at hs
    | phi q =>
      rwa [Defines, hf.phi_removed_replaceAllUses, hf.phi_value_replaceAllUses] at hs
  live i hi := by rwa [hf.insn_replaceAllUses] at hi
  reads i _ v hne hv := by
    have hother : v ≠ old := fun heq => hne (heq ▸ hold)
    rw [hf.insn_replaceAllUses, redirectInsn, Op.operands_mapOperands]
    exact mem_map.2 ⟨v, hv, by simp [redirect, hother]⟩

lemma withoutInsn (hlive : f.LiveInsn i) : f.Sheds (f.withoutInsn i) given := by
  have hself := insn_withoutInsn_self hlive
  refine ⟨fun v s hs => ?_, fun j hj => ?_, fun j hj v _ hv => ?_⟩
  · cases s with
    | insn j =>
      by_cases hji : j = i
      · rw [hji, Defines, hself] at hs
        cases hs
      · rwa [Defines, insn_withoutInsn hji] at hs
    | phi q => rwa [Defines, phi_withoutInsn] at hs
  all_goals
    by_cases hji : j = i
    · rw [hji, hself] at hj
      cases hj
    · rw [insn_withoutInsn hji] at *
      assumption

lemma removeInsn (hrun : (Ssa.removeInsn i).run f = .ok () g) : f.Sheds g given := by
  by_cases hlive : f.LiveInsn i
  · exact (removeInsn_ok hlive hrun).1 ▸ withoutInsn hlive
  · rw [removeInsn_removed (by simpa using hlive)] at hrun
    cases hrun
    exact refl f

lemma trimmed (ht : f.Trimmed g) : f.Sheds g given where
  defines v s hs := by
    cases s with
    | insn j =>
      rw [Defines, ht.insn] at hs
      split at hs
      · exact hs
      · cases hs
    | phi q =>
      rw [Defines, ht.phi] at hs
      split at hs
      · exact hs
      · cases hs.1
  live j hj := by
    rw [ht.insn] at hj
    split at hj
    · exact hj
    · cases hj
  reads j hj v _ hv := by
    rw [ht.insn] at hj ⊢
    split at hj
    · rename_i hreached
      rwa [if_pos hreached]
    · cases hj

end Sheds

end Ssa.Function

namespace Inline

open Ssa (Edit Function Op)
open Ssa.Function

variable {f callee g h g' : Function} {call : InsnId} {answer : InlinedCall} {site : AllocationSite}

lemma sheds_bind {result : Option ValueId} (hg : g.Exact)
    (hbind : (bindResult call result).run g = .ok () g')
    (hremove : (Ssa.removeInsn call).run g' = .ok () h) :
    g.Sheds h fun v => (g.insn call).dest = some v := by
  refine Sheds.trans ?_ (.removeInsn hremove)
  rcases bindResult_ok hbind with ⟨d, v, hdest, -, rfl⟩ | ⟨rfl, -⟩
  · exact .replaceAllUses hg hdest v
  · exact .refl _

/-- The instructions among `is` that a copy has to pay for. -/
def price (callee : Function) (is : List InsnId) : Nat :=
  ((is.map fun i => (callee.insn i).op).filter fun op => !MethodSummary.isParameter op).length

def cost (callee : Function) : Nat := price callee callee.insnIds

lemma cost_eq_sum (callee : Function) :
    cost callee = (callee.blockIds.map fun b => price callee (callee.block b).insns).sum := by
  rw [cost, insnIds]
  induction callee.blockIds with
  | nil => rfl
  | cons b bs ih =>
    rw [flatMap_cons, map_cons, sum_cons, ← ih]
    simp [price]

lemma price_le {b : BlockId} (hb : b ∈ callee.blockIds) :
    price callee (callee.block b).insns ≤ cost callee := by
  rw [cost_eq_sum]
  exact le_sum_of_mem (mem_map_of_mem (f := fun b => price callee (callee.block b).insns) hb)

lemma length_le_of_transcribed {value : ValueId → ValueId} {block : BlockId → BlockId}
    {exit : Option ValueId → List InsnId → Prop} {is js : List InsnId}
    (h : Semantics.Transcribed callee g value block exit is js)
    (hexit : ∀ returned js, exit returned js → js.length ≤ 1) : js.length ≤ price callee is := by
  induction h with
  | nil => exact le_rfl
  | param op _ ih => simpa [price, op, MethodSummary.isParameter] using ih
  | @copy i _ is _ _ _ param _ _ ih =>
    have hpaid : MethodSummary.isParameter (callee.insn i).op = false := by
      cases hop : (callee.insn i).op <;> first | rfl | exact absurd hop (param _)
    simpa [price, hpaid] using ih
  | leave op exits =>
    refine (hexit _ _ exits).trans ?_
    simp [price, op, MethodSummary.isParameter]

lemma inlineCall_stages (hf : f.Regular) (hc : callee.Regular) (hcopy : Copyable callee)
    (hrun : (inlineCall call callee).run f = .ok (some answer) h) :
    ∃ g : Function, g.Exact ∧ (∀ i, f.HasInsn i →
      (g.insn i).op = (f.insn i).op ∧ (g.insn i).dest = (f.insn i).dest) ∧
      (g.Sheds h fun v => (f.insn call).dest = some v) ∧ (h.insn call).removed = true ∧
      ∃ new : List InsnId, new.length ≤ cost callee + 1 ∧
        ∀ i, g.LiveInsn i → f.LiveInsn i ∨ i ∈ new := by
  obtain ⟨kind, method, args, hinvoke⟩ := invoke_of_inlineCall hrun
  have hlive := hf.exact.live_of_op (i := call) (by simp [hinvoke])
  obtain ⟨hu, hcases⟩ := inlineCall_cases hc.toWellFormed hrun
  rcases hcases with ⟨hstraight, hrun⟩ | hrun
  · obtain ⟨before, after, copies, s, g, g', hhome, hsplice, hcopies, hbind, hremove⟩ :=
      splice_ok hf.toWellFormed hc.toWellFormed hstraight hcopy.entry_phis hlive hrun
    refine ⟨g, hsplice.exact, fun i hi => by rw [hsplice.insn i hi]; exact ⟨rfl, rfl⟩, ?_,
      removed_of_removeInsn hremove, copies, ?_, fun i hi => ?_⟩
    · rw [← hsplice.insn call (f.lt_insns_of_live hlive)]
      exact sheds_bind hsplice.exact hbind hremove
    · refine (length_le_of_transcribed hcopies fun _ js hexit => by simp [hexit.1]).trans ((price_le ?_).trans (Nat.le_succ _))
      exact (mem_blockIds callee callee.entry).2 hc.entry_live
    · have hmem := (hsplice.exact.insns_iff _ i).2 ⟨hi, rfl⟩
      have hold : ∀ b, i ∈ (f.block b).insns → f.LiveInsn i := fun b hb =>
        ((hf.exact.insns_iff b i).1 hb).1
      rw [hsplice.block] at hmem
      split at hmem
      · rcases mem_append.1 hmem with hmem | hmem
        · rcases mem_append.1 hmem with hmem | hmem
          · exact .inl (hold _ (hhome ▸ mem_append_left _ hmem))
          · exact .inr hmem
        · exact .inl (hold _ (hhome ▸ mem_append_right _ hmem))
      · exact .inl (hold _ hmem)
  · obtain ⟨before, after, r, jump, returns, merge, size, result, g, he, hmerge, hend⟩ :=
      expand_ok hf.toWellFormed hc.toWellFormed hu hlive hrun
    refine ⟨g, he.orderly.exact, he.insn, ?_, ?_, jump :: callee.blockIds.flatMap fun c =>
      (g.block (r.block c)).insns, ?_, fun i hi => ?_⟩
    · rw [← he.kept]
      rcases hend with ⟨-, hremove⟩ | ⟨-, g', hbind, hremove⟩
      · have hg : g.WellFormed := he.wellFormed hmerge hcopy.carried hcopy.entry_phis
        exact (Sheds.trimmed hg.trimmed).trans (.removeInsn hremove)
      · exact sheds_bind he.orderly.exact hbind hremove
    · rcases hend with ⟨-, hremove⟩ | ⟨-, g', -, hremove⟩ <;> exact removed_of_removeInsn hremove
    · rw [length_cons, length_flatMap, cost_eq_sum]
      refine Nat.succ_le_succ (sum_le_sum fun c hc' => ?_)
      refine length_le_of_transcribed (he.copy c ((mem_blockIds callee c).1 hc')).insns ?_
      rintro _ _ ⟨j, rfl, -⟩
      rfl
    · rcases he.mem_cases hi with hi | rfl | ⟨c, hlive, hi⟩
      · exact .inl hi
      · exact .inr mem_cons_self
      · exact .inr (mem_cons_of_mem _ (mem_flatMap.2 ⟨c, (mem_blockIds callee c).2 hlive, hi⟩))

/-! ## The allocation -/

/-- The allocation is an instruction of the function, or it was removed and nothing defines its
value. -/
def AllocationSite.Standing (site : AllocationSite) (f : Function) : Prop :=
  site.StandsIn f ∨ site.insn.index < f.insns.size ∧ (f.insn site.insn).removed = true ∧
    ∀ s, ¬f.Defines site.value s

lemma AllocationSite.StandsIn.persists (hs : site.StandsIn f) (hlt : site.insn.index < f.insns.size)
    (hp : f.Persists g) (hlive : g.LiveInsn site.insn) : site.StandsIn g := by
  obtain ⟨-, hdest, swap, hop⟩ := hp.insn site.insn hlt hlive
  exact ⟨by rw [hop, hs.op]; rfl, hdest.trans hs.dest⟩

lemma unread_of_undefined (hf : f.WellFormed) (hv : ∀ s, ¬f.Defines v s) :
    (f.value v).users = [] := by
  refine eq_nil_iff_forall_not_mem.2 fun user huser => ?_
  have hdefined := hf.flow.defined v user ((hf.exact.users_iff v user).1 huser)
  obtain ⟨s, hs⟩ := Option.isSome_iff_exists.1 hdefined
  exact hv s ((hf.exact.definition_iff v s).1 hs)

/-- An allocation that stands while a call is replaced stands behind it, or its value is defined nowhere;
other calls that stay and read it still do. -/
theorem standing_inlineCall (hf : f.Regular) (hc : callee.Regular) (hcopy : Copyable callee)
    (hrun : (inlineCall call callee).run f = .ok (some answer) h) (hs : site.StandsIn f) :
    site.Standing h ∧ ∀ i, f.Reads site.value (.insn i) → h.LiveInsn i →
      h.Reads site.value (.insn i) := by
  obtain ⟨g, hg, hold, hshed, -⟩ := inlineCall_stages hf hc hcopy hrun
  have hlt : site.insn.index < f.insns.size := hs.lt hf.exact
  obtain ⟨hop, hdest⟩ := hold site.insn hlt
  have hunique : ∀ s, h.Defines site.value s → s = .insn site.insn := by
    intro s hdef
    have hsite : g.Defines site.value (.insn site.insn) := hdest.trans hs.dest
    have hdef' := (hg.definition_iff _ _).2 (hshed.defines _ _ hdef)
    rw [(hg.definition_iff _ _).2 hsite] at hdef'
    exact (Option.some.inj hdef').symm
  constructor
  · obtain ⟨hregular, hpersists⟩ := regular_inlineCall hf hc hcopy hrun
    cases hlive : (h.insn site.insn).removed with
    | false => exact .inl (hs.persists hlt hpersists hlive)
    | true =>
      refine .inr ⟨hlt.trans_le hpersists.size, hlive, fun s hdef => ?_⟩
      obtain rfl := hunique s hdef
      rw [Defines, (hregular.exact.insn_gone _ hlive).2] at hdef
      cases hdef
  · intro i hreads hlive
    have hi := lt_of_reads hreads
    have hcall : (f.insn call).dest ≠ some site.value := by
      intro hcalls
      obtain ⟨kind, method, args, hinvoke⟩ := invoke_of_inlineCall hrun
      rw [← hf.exact.insn_unique hs.dest hcalls, hs.op] at hinvoke
      cases hinvoke
    refine hshed.reads i hlive site.value hcall ?_
    rwa [(hold i hi).1]

lemma reconstruct_unused (hunused : (f.value site.value).users = [])
    (hrun : (reconstruct site root).run f = .ok done h) :
    ∃ n g, Ssa.cleanUpPhis.run f = .ok n g ∧ (Ssa.removeInsn site.insn).run g = .ok () h := by
  obtain ⟨f0, f', ⟨⟩, hrun⟩ := Edit.ok_of_bind hrun
  -- with no users the lists of reads, writes and constructor calls are empty
  rw [hunused] at hrun
  obtain ⟨u, g, hclean, hrun⟩ := Edit.ok_of_bind (x := discard Ssa.cleanUpPhis) hrun
  obtain ⟨n, g', hclean, ⟨⟩⟩ := Edit.ok_of_bind hclean
  obtain ⟨f0, f', ⟨⟩, hrun⟩ := Edit.ok_of_bind hrun
  cases hleft : (g.value site.value).isUnused with
  | false =>
    simp only [hleft] at hrun
    cases hrun
  | true =>
    simp only [hleft] at hrun
    obtain ⟨u, k, hremove, ⟨⟩⟩ := Edit.ok_of_bind hrun
    exact ⟨n, g, hclean, hremove⟩

lemma AllocationSite.Standing.regular_reconstruct (hs : site.Standing f) (hf : f.Regular)
    (hrun : (reconstruct site root).run f = .ok done h) : h.Regular ∧ f.Persists h := by
  rcases hs with hs | ⟨hlt, hgone, hundefined⟩
  · obtain ⟨hh, hretains⟩ := Inline.regular_reconstruct hf hs hrun
    exact ⟨hh, hretains.toPersists⟩
  · obtain ⟨n, g, hclean, hremove⟩ :=
      reconstruct_unused (unread_of_undefined hf.toWellFormed hundefined) hrun
    obtain ⟨m, k, hrun', hk, hretains, -⟩ := hf.cleanUpPhis_run
    rw [hclean] at hrun'
    cases hrun'
    have hstill : (g.insn site.insn).removed := by
      by_contra hlive
      have := (hretains.insn site.insn hlt (by simpa using hlive)).1
      rw [hgone] at this
      cases this
    rw [Ssa.Function.removeInsn_removed hstill] at hremove
    cases hremove
    exact ⟨hk, hretains.toPersists⟩

end Inline

end Dissolve
