import Dissolve.Optimize.Compile
import Dissolve.Proofs.Optimize.Dissolving
import Dissolve.Proofs.Optimize.Passes

/-!
# Proofs.Optimize.Standard — the standard passes are faithful

Forwarding bridges does not look at the lens of a function, so it is faithful also where contexts
differ in the lenses of functions (`unlensed`).
-/

namespace Dissolve

open List

lemma Assoc.put_of_find? {α β : Type} [DecidableEq α] {k : α} {v : β} {ps : List (α × β)}
    (h : find? k ps = some v) : put k v ps = ps := by
  induction ps with
  | nil => cases h
  | cons p rest ih =>
    rw [find?] at h
    rw [put]
    split at h
    · rename_i heq
      rw [if_pos heq, ← heq, ← Option.some.inj h]
    · rename_i hne
      rw [if_neg hne, ih h]

/-! ## Edits of a function -/

namespace Ssa

variable {f g : Function} {fuel removed n : Nat} {work : List PhiId}

lemma same_of_eliminateTrivial (hrun : (eliminateTrivial fuel work removed).run f = .ok n g) :
    removed ≤ n ∧ (n = removed → g = f) := by
  induction fuel generalizing work removed f with
  | zero =>
    cases hrun
    exact ⟨le_rfl, fun _ => rfl⟩
  | succ fuel ih =>
    cases work with
    | nil =>
      cases hrun
      exact ⟨le_rfl, fun _ => rfl⟩
    | cons p work =>
      obtain ⟨_, _, ⟨⟩, hrun⟩ := Edit.ok_of_bind hrun
      split at hrun
      · obtain ⟨_, f', -, hrun⟩ := Edit.ok_of_bind hrun
        have := (ih hrun).1
        exact ⟨by omega, fun heq => by omega⟩
      · exact ih hrun

lemma same_of_cleanUpPhis (hrun : cleanUpPhis.run f = .ok 0 g) : g = f := by
  obtain ⟨m, f', htrivial, hrun⟩ := Edit.ok_of_bind hrun
  obtain ⟨_, _, ⟨⟩, htrivial⟩ := Edit.ok_of_bind htrivial
  obtain ⟨k, g', hdead, hrun⟩ := Edit.ok_of_bind hrun
  obtain ⟨_, _, ⟨⟩, hdead⟩ := Edit.ok_of_bind hdead
  obtain ⟨_, _, ⟨⟩, hdead⟩ := Edit.ok_of_bind hdead
  obtain ⟨_, _, hremove, ⟨⟩⟩ := Edit.ok_of_bind hdead
  rw [EStateM.run_pure, EStateM.Result.ok.injEq] at hrun
  obtain ⟨hsum, rfl⟩ := hrun
  have hnone : f'.deadPhis = [] := eq_nil_of_length_eq_zero (by omega)
  rw [hnone] at hremove
  cases hremove
  exact (same_of_eliminateTrivial htrivial).2 (by omega)

end Ssa

namespace Optimize

open Ssa (Function)

variable {method : MethodRef} {c d : Context} {f : Function} {seen : Function → Function}

lemma Context.store_same (hf : c.functions.get? method = some f) : c.store method f = c := by
  rw [Context.store, Assoc.insert, Assoc.put_of_find? hf]

/-- An edit that succeeds on regular functions, keeps them regular, and says whether it changed
something. -/
def Sincere (edit : Ssa.Edit (Option String)) : Prop :=
  ∀ f : Function, f.Regular → ∃ o g, edit.run f = .ok o g ∧ g.Regular ∧ (o = none → g = f)

lemma runEdit_faithful {edit : Ssa.Edit (Option String)} (hedit : Sincere edit) (pass : String)
    (kind : EventKind) (method : MethodRef) :
    Faithful Context.Alike (Pass.runEdit pass kind edit method) := by
  intro c d hcd
  have hstored : Follows (onStored method edit) (onStored method edit) c d fun o c' d' =>
      c'.Alike d' ∧ (o.join = none → c.Alike c') := by
    refine .get_bind ?_
    rw [← hcd.get?]
    cases hf : c.functions.get? method with
    | none => exact .pure ⟨hcd, fun _ => hcd.left.alike⟩
    | some f =>
      obtain ⟨o, g, hrun, hg, hsame⟩ := hedit f (hcd.left.get? hf)
      dsimp only
      rw [hrun]
      refine Follows.bind (.modify ⟨hcd.store hg hg rfl, ?_⟩) fun _ c' d' h => .pure h
      rintro rfl
      rw [hsame rfl, Context.store_same hf]
      exact hcd.left.alike
  refine hstored.bind ?_
  rintro o c1 d1 ⟨hcd1, hsame⟩
  split
  · rename_i hnone
    exact .pure ⟨hcd1, fun _ => hsame hnone⟩
  · refine (Quiet.record _ hcd1).bind fun _ c2 d2 h => .pure ⟨h.2.1, nofun⟩

/-! ## Bridges -/

lemma forwardBridges_follows (hseen : ∀ f, forwardingTarget? (seen f) = forwardingTarget? f)
    (hcd : c.AlikeBy seen d) (forwarded : List MethodRef) :
    Follows (forwardBridges forwarded) (forwardBridges forwarded) c d fun all c' d' =>
      c'.AlikeBy seen d' ∧ (all.length ≤ forwarded.length → all = forwarded ∧ c.AlikeBy seen c') := by
  have hbridge (m : MethodRef) : bridge? c m = bridge? d m := by
    have htarget : (c.functions.get? m).bind forwardingTarget? =
        (d.functions.get? m).bind forwardingTarget? := by
      have := congrArg (Option.bind · forwardingTarget?) (hcd.map_get? m)
      simpa only [Option.bind_map, Function.comp_def, hseen] using this
    rw [bridge?, bridge?, hcd.program, htarget]
  refine .get_bind ?_
  simp only [hbridge, hcd.methods]
  split
  · exact .pure ⟨hcd, fun _ => ⟨rfl, hcd.left.alike⟩⟩
  · rename_i hsome
    rw [hcd.lenses, hcd.currentLens]
    refine Follows.bind (.ofExcept (Q := fun _ c' d' => c'.AlikeBy seen d') fun _ _ => hcd)
      fun p c1 d1 hcd1 => ?_
    refine Follows.bind (.modify (Q := fun _ c' d' => c'.AlikeBy seen d') ?_) fun _ c2 d2 hcd2 => ?_
    · have hcore := hcd1.core
      simp only [Context.core, Core.mk.injEq] at hcore
      refine ⟨⟨hcd1.left.regular, truthful_of_empty rfl rfl, hcd1.left.verdicts⟩,
        ⟨hcd1.right.regular, truthful_of_empty rfl rfl, hcd1.right.verdicts⟩, ?_⟩
      simp only [Context.core, Context.setLens, hcore]
    · refine (Quiet.record _ hcd2).bind ?_
      rintro _ c3 d3 ⟨_, hcd3, _⟩
      refine (Quiet.forM (fun b => Quiet.record _) _ hcd3).bind ?_
      rintro _ c4 d4 ⟨_, hcd4, _⟩
      refine .pure ⟨hcd4, fun hle => ?_⟩
      rw [length_append, length_map] at hle
      exact absurd (isEmpty_iff.2 (eq_nil_of_length_eq_zero (by omega))) hsome

/-! ## Passes -/

def unlensed (f : Function) : Function := { f with lens := none }

lemma bridgeForwarding_faithful (hseen : ∀ f, forwardingTarget? (seen f) = forwardingTarget? f) :
    Pass.bridgeForwarding.Faithful seen := by
  refine ⟨rfl, rfl, fun _ _ _ => rfl, fun _ => Faithful.pure_false, fun s t hst => .get_bind ?_⟩
  have hconfig : s.context.config.bridgeForwarding = t.context.config.bridgeForwarding :=
    congrArg (fun k => k.config.bridgeForwarding) hst.context.core
  rw [hconfig, hst.memory]
  split
  · exact Faithful.pure_false hst
  · refine (forwardBridges_follows hseen hst.context t.memory).onContext.bind ?_
    rintro all s1 t1 ⟨⟨hcd, hsame⟩, hs, ht⟩
    refine Follows.bind (.modify (Q := fun _ s' t' => s'.AlikeBy seen t' ∧
      (all.length ≤ t.memory.length → s.AlikeBy seen s')) ⟨⟨hcd, rfl⟩, fun hle => ?_⟩)
      fun _ s2 t2 h => .pure ⟨h.1, fun hfalse => ?_⟩
    · obtain ⟨rfl, hcc⟩ := hsame hle
      exact ⟨hcc, hst.memory⟩
    · exact h.2 (Nat.le_of_not_lt (of_decide_eq_false hfalse))

lemma classInlining_faithful : Pass.classInlining.Faithful id :=
  ⟨rfl, rfl, fun c d hcd => by simp only [Pass.classInlining, hcd.classInlining, hcd.program],
    fun m => (dissolveAllocations_faithful m).onContext, Faithful.pure_false⟩

lemma phiCleanup_faithful : Pass.phiCleanup.Faithful id := by
  refine ⟨rfl, rfl, fun _ _ _ => rfl, fun m => (runEdit_faithful (fun f hf => ?_) _ _ m).onContext,
    Faithful.pure_false⟩
  obtain ⟨n, g, hrun, hg, -⟩ := hf.cleanUpPhis_run
  refine ⟨_, g, Ssa.Edit.run_bind_ok hrun, hg, fun hnone => ?_⟩
  have hzero : n = 0 := by simpa using hnone
  exact Ssa.same_of_cleanUpPhis (hzero ▸ hrun)

lemma blockMerging_faithful : Pass.blockMerging.Faithful id := by
  refine ⟨rfl, rfl, fun c d hcd => ?_, fun m => (runEdit_faithful (fun f hf => ?_) _ _ m).onContext,
    Faithful.pure_false⟩
  · exact funext fun _ => congrArg (fun k => k.config.blockMerging) hcd.core
  · obtain ⟨stats, g, hrun, hg, hsame⟩ := hf.mergeBlocks_run
    exact ⟨_, g, Ssa.Edit.run_bind_ok hrun, hg, fun hnone => hsame (by simpa using hnone)⟩

/-! ## Current names -/

lemma currentOp_alike (view : Lens.View) (context : MethodRef) (op : Ssa.Op) :
    op.Alike (currentOp view context op) := by
  cases op <;> refine ⟨rfl, rfl, rfl, ?_⟩ <;> simp [currentOp]

lemma rewords_renamed (view : Lens.View) (hf : f.WellFormed) :
    f.Rewords ((renamedInsns view f).foldl (fun f (i, op) => f.replaceOp i op) f) := by
  have hloop (l : List (InsnId × Ssa.Op)) (hl : ∀ p ∈ l, (f.insn p.1).removed = false ∧
      (f.insn p.1).op.Alike p.2) {g : Function} (hg : f.Rewords g) :
      f.Rewords (l.foldl (fun f (i, op) => f.replaceOp i op) g) := by
    induction l generalizing g with
    | nil => exact hg
    | cons p l ih =>
      obtain ⟨⟨hlive, halike⟩, hl⟩ := forall_mem_cons.1 hl
      refine ih hl (hg.trans (.replaceOp (hg.exact hf.exact) ?_ ((hg.alike p.1).cross halike)))
      exact (hg.removed p.1).trans hlive
  refine hloop _ (fun p hp => ?_) (f.rewords_lens f.lens)
  obtain ⟨i, hi, hp⟩ := mem_filterMap.1 hp
  dsimp only at hp
  split at hp
  · cases hp
  · cases hp
    exact ⟨hf.mem_insnIds.1 hi, currentOp_alike _ _ _⟩

def Context.IsCurrent (c : Context) (method : MethodRef) : Prop :=
  ∀ f, c.functions.get? method = some f → f.lens = c.currentLens

lemma Context.IsCurrent.congr (h : c.IsCurrent method) (hcd : c.Alike d) : d.IsCurrent method := by
  intro f hf
  rw [← hcd.currentLens]
  exact h f (by rw [hcd.get?, hf])

structure Refreshed (c : Context) (methods : List MethodRef) (changed : Bool) (c' d' : Context) :
    Prop where
  alike : c'.Alike d'
  same : changed = false → c.AlikeBy unlensed c'
  current : ∀ m, m ∈ methods ∨ c.IsCurrent m → c'.IsCurrent m

lemma refreshMethod_current (h : c.IsCurrent method) :
    (refreshMethod method).run c = .ok false c := by
  have hlens : ∃ o, (refreshLens method).run c = .ok o c ∧ o.getD false = false := by
    simp only [refreshLens, EStateM.run_bind, EStateM.run_get]
    cases hf : c.functions.get? method with
    | none => exact ⟨none, rfl, rfl⟩
    | some f =>
      refine ⟨some false, ?_, rfl⟩
      dsimp only
      rw [if_pos (h f hf)]
      rfl
  obtain ⟨o, hrun, hfalse⟩ := hlens
  rw [refreshMethod, EStateM.run_bind, hrun]
  simp only [hfalse]
  rfl

lemma Context.AlikeBy.refreshed (hcd : c.Alike d) {g : Function} {changed : Bool}
    (hf : c.functions.get? method = some f) (hg : g.Regular) (hlens : g.lens = c.currentLens)
    (hsame : changed = false → unlensed g = unlensed f) :
    Refreshed c [method] changed (c.store method g) (d.store method g) := by
  refine ⟨hcd.store hg hg rfl, fun hfalse => ?_, fun m hm f' hf' => ?_⟩
  · have hstore : (c.store method f).AlikeBy unlensed (c.store method g) :=
      hcd.left.alike.store (hcd.left.get? hf) hg (hsame hfalse).symm
    rwa [Context.store_same hf] at hstore
  · change (c.functions.insert method g).get? m = some f' at hf'
    rw [Assoc.get?_insert] at hf'
    split at hf'
    · exact Option.some.inj hf' ▸ hlens
    · rename_i hne
      exact hm.elim (fun heq => absurd (mem_singleton.1 heq).symm hne) fun hm => hm f' hf'

lemma refreshMethod_follows (hcd : c.Alike d) (method : MethodRef) :
    Follows (refreshMethod method) (refreshMethod method) c d (Refreshed c [method]) := by
  by_cases hcurrent : c.IsCurrent method
  · intro changed c' hrun
    rw [refreshMethod_current hcurrent] at hrun
    cases hrun
    refine ⟨d, refreshMethod_current (hcurrent.congr hcd), hcd, fun _ => hcd.left.alike, ?_⟩
    rintro m (hm | hm)
    · exact mem_singleton.1 hm ▸ hcurrent
    · exact hm
  · obtain ⟨f, hf, hlens⟩ : ∃ f, c.functions.get? method = some f ∧ f.lens ≠ c.currentLens := by
      simpa [Context.IsCurrent] using hcurrent
    have hregular := hcd.left.get? hf
    refine Follows.bind (P := fun o => Refreshed c [method] (o.getD false)) (.get_bind ?_)
      fun o c1 d1 h => ?_
    · rw [← hcd.get?, hf]
      simp only [← hcd.currentLens, if_neg hlens, Context.view, ← hcd.lenses]
      refine Follows.bind (.ofExcept (Q := fun _ c' d' => c = c' ∧ d = d') fun _ _ => ⟨rfl, rfl⟩) ?_
      rintro view _ _ ⟨rfl, rfl⟩
      refine Follows.bind (.modify ?_) fun _ _ _ h => .pure h
      have hrenamed := (rewords_renamed view hregular.toWellFormed).trans
        (Function.rewords_lens _ c.currentLens)
      rw [← hcd.currentLens]
      refine hcd.refreshed hf (hregular.rewords hrenamed) rfl fun hsame => ?_
      have hnone : renamedInsns view f = [] := by simpa using hsame
      rw [hnone]
      rfl
    · cases hchanged : o.getD false with
      | false =>
        rw [hchanged] at h
        exact .pure h
      | true =>
        refine (Quiet.markChanged method h.alike).bind ?_
        rintro _ c2 d2 ⟨_, hcd2, hcc2⟩
        exact .pure ⟨hcd2, Bool.noConfusion, fun m hm => (h.current m hm).congr hcc2⟩

variable {ρ : Type} {s t : Session ρ}

/-- All functions get the current names; where no instruction changed, only lenses did. -/
lemma refreshAll_follows (hst : s.AlikeBy id t) :
    Follows refreshAll refreshAll s t fun changed s' t' => s'.AlikeBy id t' ∧
      (changed = false → s.AlikeBy unlensed s') ∧ ∀ m, s'.context.IsCurrent m := by
  refine .get_bind ?_
  rw [← hst.context.methods]
  have hloop := Follows.mapM (f := fun m => onContext (refreshMethod m))
    (g := fun m => onContext (refreshMethod m)) s.context.methods
    (I := fun before done (s' t' : Session ρ) => Refreshed s.context before (done.any id) s'.context
      t'.context ∧ s'.memory = s.memory ∧ t'.memory = t.memory)
    (fun m _ before done s' t' hdone => ?_)
    ⟨⟨hst.context, fun _ => hst.context.left.alike, fun m hm => hm.resolve_left not_mem_nil⟩,
      rfl, rfl⟩
  · refine hloop.runForEach.mono ?_
    rintro _ s' t' ⟨changes, rfl, h, hs, ht⟩
    refine ⟨⟨h.alike, hs.trans (hst.memory.trans ht.symm)⟩, fun hsame => ⟨h.same hsame, hs.symm⟩,
      fun m => h.current m ?_⟩
    refine (Classical.em (m ∈ s.context.methods)).imp_right fun hm f hf => absurd ?_ hm
    exact (perm_sortBy _ _).mem_iff.2 (mem_map.2 ⟨_, Assoc.mem_of_find? hf, rfl⟩)
  · obtain ⟨h, hs, ht⟩ := hdone
    refine (refreshMethod_follows h.alike m).onContext.mono ?_
    rintro changed s'' t'' ⟨h', hs', ht'⟩
    refine ⟨?_, hs'.trans hs, ht'.trans ht⟩
    refine ⟨h'.alike, fun hsame => ?_, fun m' hm' => h'.current m' ?_⟩
    · simp only [any_append, any_cons, any_nil, Bool.or_eq_false_iff] at hsame
      exact (h.same hsame.1).trans (h'.same hsame.2.1)
    · rw [mem_append, or_comm (a := m' ∈ before), or_assoc] at hm'
      exact hm'.imp_right (h.current m')

lemma refreshAll_current (h : ∀ m, s.context.IsCurrent m) : refreshAll.run s = .ok false s := by
  have hmethod (m : MethodRef) : (onContext (refreshMethod m)).run s = .ok false s := by
    change Optimize.onContext _ s = _
    rw [onContext, show refreshMethod m s.context = _ from refreshMethod_current (h m)]
  have hloop (methods : List MethodRef) : ∃ changes,
      (methods.mapM fun m => onContext (refreshMethod m)).run s = .ok changes s ∧
        changes.any id = false := by
    induction methods with
    | nil => exact ⟨[], rfl, rfl⟩
    | cons m rest ih =>
      obtain ⟨changes, hrun, hsame⟩ := ih
      exact ⟨false :: changes, mapM_cons_ok_iff.2 ⟨_, _, s, rfl, hmethod m, hrun⟩, hsame⟩
  exact runForEach_ok_iff.2 (hloop s.context.methods)

end Optimize

end Dissolve
