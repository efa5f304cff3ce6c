import Dissolve.Proofs.Inline.Assembly
import Dissolve.Proofs.Inline.Edges
import Dissolve.Proofs.Inline.Splice
import Dissolve.Proofs.Semantics.Trimming
import Dissolve.Proofs.Ssa.History

/-!
# Proofs.Inline.Behaviour — inlining a call keeps behaviour

Main statement: where `inlineCall` replaces a call, the result shows what the caller shows when the call
runs the body of the callee, and the call no longer occurs.

A callee that never returns leaves nothing behind the call, so the unreached blocks are removed before
the call is taken out. Taking out the call first gives a function that reads a value without a definition
in blocks that no run reaches (`Opened.trimmed_withoutInsn`).
-/

namespace Dissolve.Inline

open List
open Machine (Ending)
open Ssa (Edit Function Op Position)
open Ssa.Function
open Semantics

namespace Opened

variable {f callee g h : Function} {call jump : InsnId} {before after : List InsnId} {r : Renaming}
  {returns : List (BlockId × Option ValueId)} {merge : List PhiId} {size : Nat} {b : BlockId}

variable (he : Opened f callee call before after r jump returns merge size g)
include he

lemma reads_of_reads {v : ValueId} {site : Site} (hv : f.Reads v site) : g.Reads v site := by
  cases site with
  | insn i =>
    have hlt : f.HasInsn i := by
      by_contra hle
      rw [Reads, f.insn_of_size_le (by omega)] at hv
      cases hv
    rwa [Reads, (he.insn i hlt).1]
  | phi q =>
    have hlt : f.HasPhi q := by
      by_contra hle
      rw [Reads, f.phi_of_size_le (by omega)] at hv
      cases hv
    rwa [Reads, he.phi q hlt]

lemma reached_withoutInsn (b : BlockId) : (g.withoutInsn call).reached b = g.reached b := by
  have hsize : (g.withoutInsn call).blocks.size = g.blocks.size := by simp [withoutInsn]
  have hgraph : (g.withoutInsn call).graph = g.graph := by
    unfold graph
    congr 1
    funext n
    rw [he.successors_withoutInsn,
      he.orderly.exact.block_withoutInsn (he.live_call)]
  unfold reached
  rw [hgraph]
  rfl

/-- The unreached blocks may as well be removed behind the call. -/
theorem trimmed_withoutInsn (htrim : g.Trimmed g.removeUnreachableBlocks.2)
    (hrun : (Ssa.removeInsn call).run g.removeUnreachableBlocks.2 = .ok () h) :
    (g.withoutInsn call).Trimmed h := by
  have hlive := he.live_call
  have horderly := he.orderly.removeUnreachableBlocks
  have hblock := he.orderly.exact.block_withoutInsn hlive
  have hself := insn_withoutInsn_self hlive
  by_cases hreached : g.reached (g.insn call).block = true
  · have hcall : g.removeUnreachableBlocks.2.insn call = g.insn call := by
      rw [htrim.insn, if_pos hreached]
    have hlive' : g.removeUnreachableBlocks.2.LiveInsn call := by rw [LiveInsn, hcall, hlive]
    obtain ⟨rfl, -⟩ := removeInsn_ok hlive' hrun
    have hblock' := horderly.exact.block_withoutInsn hlive'
    refine ⟨fun b hb => ?_, fun b hb => ?_, fun i => ?_, fun q => ?_⟩
    · rw [he.reached_withoutInsn] at hb
      rw [hblock', htrim.gone b hb]
      rfl
    · rw [he.reached_withoutInsn] at hb
      rw [hblock', htrim.block b hb, hblock, funext (he.reached_withoutInsn)]
    · rw [he.reached_withoutInsn]
      by_cases hi : i = call
      · subst hi
        rw [insn_withoutInsn_self hlive', hcall, hself,
          if_pos (show g.reached (g.insn i).gone.block = true from hreached)]
      · rw [insn_withoutInsn hi, htrim.insn, insn_withoutInsn hi]
    · rw [phi_withoutInsn, htrim.phi, phi_withoutInsn, hblock, funext (he.reached_withoutInsn)]
  · have hcall : g.removeUnreachableBlocks.2.insn call = (g.insn call).gone := by
      rw [htrim.insn, if_neg hreached]
    rw [removeInsn_removed (by rw [hcall]; rfl)] at hrun
    cases hrun
    refine ⟨fun b hb => ?_, fun b hb => ?_, fun i => ?_, fun q => ?_⟩
    · rw [he.reached_withoutInsn] at hb
      exact htrim.gone b hb
    · rw [he.reached_withoutInsn] at hb
      rw [htrim.block b hb, hblock, funext (he.reached_withoutInsn), filter_ne]
      intro hmem
      rw [((he.orderly.exact.insns_iff b call).1 hmem).2] at hreached
      exact hreached hb
    · rw [he.reached_withoutInsn]
      by_cases hi : i = call
      · subst hi
        rw [hcall, hself, if_neg (show g.reached (g.insn i).gone.block ≠ true from hreached)]
        rfl
      · rw [htrim.insn, insn_withoutInsn hi]
    · rw [htrim.phi, phi_withoutInsn, hblock, funext (he.reached_withoutInsn)]

end Opened

section Expand

variable {f callee h g : Function} {call jump : InsnId} {answer : InlinedCall}

/-- The result shows what the caller shows, where the call runs the body. -/
def Replaces (f callee : Function) (call : InsnId) (h : Function) : Prop :=
  (∀ {D : Type} (blank : D) (params : List D) (trace : List (Question D × Answer D))
    (ending : Option (Ending D)),
    Shows (calling f callee call blank params) (.outside (start f fun _ => blank)) trace ending ↔
      Shows (next h params) (start h fun _ => blank) trace ending) ∧
    ∀ b, call ∉ (h.block b).insns

lemma Opened.replaces_never {before after : List InsnId} {r : Renaming} {size : Nat}
    (he : Opened f callee call before after r jump [] [] size g)
    (hentry : (callee.block callee.entry).phis = [])
    (hrun : (Ssa.removeInsn call).run g.removeUnreachableBlocks.2 = .ok () h) :
    Replaces f callee call h := by
  have htrim := he.orderly.trimmed fun b p hp => by
    refine ⟨?_, he.live_of_pred hp⟩
    rwa [← count_pos_iff, ← he.edges, count_pos_iff]
  have htrim' := he.trimmed_withoutInsn htrim hrun
  have hb := he.rebound_withoutInsn
  have horderly := he.orderly.withoutInsn he.live_call
  have hlive : ∀ b, ((g.withoutInsn call).block b).removed = (g.block b).removed := fun b => by
    rw [hb.block]
  have hinlined := he.inlined hb hentry .never fun hne => absurd rfl hne
  refine ⟨fun blank params trace ending => (hinlined.shows_iff he.caller he.body rfl).trans
    (Trimmed.shows_iff htrim' (fun b i hi => ((horderly.exact.insns_iff b i).1 hi).2)
      (fun b q hq => ((horderly.exact.phis_iff b q).1 hq).2) ?_ ?_ ?_), ?_⟩
  · intro b before' i rest hlist hterm
    have hlist : (g.block b).insns.filter (fun j => j ≠ call) = before' ++ i :: rest := by
      rwa [hb.block] at hlist
    have hmem : i ∈ (g.block b).insns.filter fun j => j ≠ call := by
      rw [hlist]
      simp
    obtain ⟨hmem, hi⟩ := mem_filter.1 hmem
    rw [insn_withoutInsn (of_decide_eq_true hi)] at hterm
    obtain ⟨front, last, hinsns, hlast, hfront⟩ :=
      he.terminated (he.orderly.live_block_of_mem hmem)
    have hne : last ≠ call := fun heq => by
      rw [heq, he.kept, he.op] at hlast
      cases hlast
    rw [hinsns, filter_append, filter_cons_of_pos (by simpa using hne), filter_nil] at hlist
    refine eq_nil_of_not_mem hlist fun hmem => ?_
    exact Bool.noConfusion ((hfront i (mem_of_mem_filter hmem)).symm.trans hterm)
  · intro b c hmem
    rw [he.successors_withoutInsn, ← count_pos_iff, ← he.edges, count_pos_iff] at hmem
    rw [LiveBlock, hlive]
    by_contra hgone
    rw [he.predecessors_of_gone hgone] at hmem
    cases hmem
  · rw [LiveBlock, hlive]
    exact he.live_old he.caller.entry_live
  · intro b hmem
    cases hreached : (g.withoutInsn call).reached b with
    | false =>
      rw [htrim'.gone b hreached] at hmem
      cases hmem
    | true =>
      rw [htrim'.block b hreached, hb.block] at hmem
      simpa using of_mem_filter hmem

lemma replaces_expand (hf : f.WellFormed) (hc : callee.WellFormed) (hu : Unguarded f callee call)
    (hlive : f.LiveInsn call) (hentry : (callee.block callee.entry).phis = [])
    (hrun : (expand call callee (f.insn call).op.operands).run f = .ok answer h) :
    Replaces f callee call h := by
  obtain ⟨before, after, r, jump, returns, merge, size, result, g, he, hmerge, hend⟩ :=
    expand_ok hf hc hu hlive hrun
  rcases hend with ⟨rfl, hremove⟩ | ⟨hne, g', hbind, hremove⟩
  · obtain rfl : merge = [] := by
      cases hmerge with
      | never => rfl
      | unread => rfl
      | phi several => exact absurd rfl several
    exact he.replaces_never hentry hremove
  · have hcall := he.live_call
    obtain ⟨hb, hunread⟩ := rebound_of_run hcall ((he.orderly.exact.insns_iff _ call).2 ⟨hcall, rfl⟩)
      (fun b hb => ((he.orderly.exact.insns_iff b call).1 hb).2)
      (fun d _ => he.orderly.exact.users_iff d) hbind hremove
    have hinlined := he.inlined hb hentry hmerge
      fun _ hnone d hd site hsite =>
        hunread hnone d (by rw [he.kept, hd]) site (he.reads_of_reads hsite)
    refine ⟨fun blank params trace ending => hinlined.shows_iff hf hc rfl, fun b hmem => ?_⟩
    rw [hb.block] at hmem
    simpa using of_mem_filter hmem

end Expand

/-! ## Calls -/

lemma inlineCall_cases {f callee h : Function} {call : InsnId} {answer : InlinedCall}
    (hc : callee.WellFormed) (hrun : (inlineCall call callee).run f = .ok (some answer) h) :
    Unguarded f callee call ∧
      (Straight callee ∧ (splice call callee (f.insn call).op.operands).run f = .ok answer h ∨
        (expand call callee (f.insn call).op.operands).run f = .ok answer h) := by
  obtain ⟨f', f'', ⟨⟩, hrun⟩ := Edit.ok_of_bind hrun
  dsimp only at hrun
  split at hrun
  · rename_i kind method args hop
    split at hrun
    · cases hrun
    · rename_i hhandlers
      rw [Bool.or_eq_true, not_or] at hhandlers
      obtain ⟨huncovered, hplain⟩ := hhandlers
      refine ⟨⟨by rw [hop]; rfl, by simpa using huncovered, fun b => ?_⟩, ?_⟩
      · by_cases hb : callee.LiveBlock b
        · by_contra hne
          exact hplain (any_eq_true.2 ⟨b, (callee.mem_blockIds b).2 hb, by simpa using hne⟩)
        · rw [hc.gone b (by simpa using hb)]
          rfl
      · rw [hop]
        split at hrun
        · rename_i hstraight
          obtain ⟨a, g, hsplice, ⟨⟩⟩ := Edit.ok_of_bind hrun
          exact .inl ⟨straight_of_isStraight hc hstraight, hsplice⟩
        · rw [← bind_pure_comp] at hrun
          obtain ⟨a, g, hexpand, ⟨⟩⟩ := Edit.ok_of_bind hrun
          exact .inr hexpand
  · cases hrun

/-- Where a call is replaced, the result shows what the caller shows when that call runs the body of the
callee on its operands, and the call no longer occurs. -/
theorem shows_inlineCall {f callee h : Function} {call : InsnId} {answer : InlinedCall}
    (hf : f.Orderly) (hverified : Ssa.verify f = .ok ()) (hc : callee.Orderly)
    (hcallee : Ssa.verify callee = .ok ()) (hentry : (callee.block callee.entry).phis = [])
    (hlive : (f.insn call).removed = false)
    (hrun : (inlineCall call callee).run f = .ok (some answer) h) :
    (∀ {D : Type} (blank : D) (params : List D) (trace : List (Question D × Answer D))
      (ending : Option (Ending D)),
      Shows (calling f callee call blank params) (.outside (start f fun _ => blank)) trace ending ↔
        Shows (next h params) (start h fun _ => blank) trace ending) ∧
      ∀ b, call ∉ (h.block b).insns := by
  have hf := hf.wellFormed_of_verify hverified
  have hc := hc.wellFormed_of_verify hcallee
  obtain ⟨hu, hcases⟩ := inlineCall_cases hc hrun
  rcases hcases with ⟨hstraight, hrun⟩ | hrun
  · obtain ⟨seam, hinlined, hgone⟩ := splice_inlined hf hc hstraight hentry hlive hrun hu
    exact ⟨fun blank params trace ending => hinlined.shows_iff hf hc rfl, hgone⟩
  · exact replaces_expand hf hc hu hlive hentry hrun

/-- The absolute value, with a branch and two returns. -/
def absolute : Function :=
  Ssa.Mutation.replay (Function.empty default true)
    [.addBlock, .addBlock, .addBlock, .appendValue ⟨0⟩ (.argument 0) .int (.lifted 0),
      .appendInsn ⟨0⟩ (.branch .lt ⟨0⟩ none ⟨1⟩ ⟨2⟩) none (.lifted 1), .addPredecessor ⟨1⟩ ⟨0⟩,
      .addPredecessor ⟨2⟩ ⟨0⟩, .appendValue ⟨1⟩ (.neg .int ⟨0⟩) .int (.lifted 2),
      .appendInsn ⟨1⟩ (.ret (some ⟨1⟩)) none (.lifted 3),
      .appendInsn ⟨2⟩ (.ret (some ⟨0⟩)) none (.lifted 4)]

/-- A loop around a call that is fed what it returned. -/
def callingLoop : Function :=
  Ssa.Mutation.replay (Function.empty default true)
    [.addBlock, .addBlock, .addBlock, .appendValue ⟨0⟩ (.argument 0) .int (.lifted 0),
      .appendInsn ⟨0⟩ (.goto ⟨1⟩) none (.lifted 1), .addPredecessor ⟨1⟩ ⟨0⟩, .insertPhi ⟨1⟩ .int,
      .appendValue ⟨1⟩ (.invoke .static default [⟨1⟩]) .int (.lifted 2),
      .appendInsn ⟨1⟩ (.branch .ne ⟨2⟩ none ⟨1⟩ ⟨2⟩) none (.lifted 3), .addPredecessor ⟨1⟩ ⟨1⟩,
      .setPhiOperands ⟨0⟩ [⟨0⟩, ⟨2⟩], .addPredecessor ⟨2⟩ ⟨1⟩,
      .appendInsn ⟨2⟩ (.ret (some ⟨2⟩)) none (.lifted 4)]

theorem shows_inlineCall_loop : ∃ h,
    (inlineCall ⟨2⟩ absolute).run callingLoop = .ok (some ⟨2, 3⟩) h ∧
      (∀ (blank : Int) (params : List Int) (trace : List (Question Int × Answer Int))
        (ending : Option (Ending Int)),
        Shows (calling callingLoop absolute ⟨2⟩ blank params)
          (.outside (start callingLoop fun _ => blank)) trace ending ↔
            Shows (next h params) (start h fun _ => blank) trace ending) ∧
      ∀ b, ⟨2⟩ ∉ (h.block b).insns := by
  have hcaller : callingLoop.Orderly := Ssa.Mutation.orderly_replay (.empty _ _) (by decide)
  have hcallee : absolute.Orderly := Ssa.Mutation.orderly_replay (.empty _ _) (by decide)
  have hanswer : (inlineCall ⟨2⟩ absolute).answer? callingLoop = some (some ⟨2, 3⟩) := by
    decide +kernel
  obtain ⟨h, hrun⟩ := Edit.ok_of_answer? hanswer
  obtain ⟨hshows, hgone⟩ := shows_inlineCall hcaller (by decide +kernel) hcallee (by decide +kernel)
    (by decide) (by decide) hrun
  exact ⟨h, hrun, fun blank params trace ending => hshows blank params trace ending, hgone⟩

end Dissolve.Inline
