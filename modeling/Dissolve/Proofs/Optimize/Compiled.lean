import Dissolve.Proofs.Optimize.Standard

/-!
# Proofs.Optimize.Compiled — what a compilation ends with

* `verify_compileProgram`: every function of a compiled program is well formed, and the checks behind
  passes change nothing.
* `run_again`: a pipeline that ends in front of its limit ends at a fixpoint.

Both follow one run by another: of the same program with checks, and of the pipeline from the state in
which the first run ended.
-/

namespace Dissolve.Optimize

open List
open Ssa (Function)

variable {ρ α : Type} {p : Pipeline ρ} {s t : Session ρ} {n : Nat} {config : Config}
  {program : Program} {methods : List MethodDef}

lemma Session.AlikeBy.weaken {seen : Function → Function} (h : s.AlikeBy id t) :
    s.AlikeBy seen t := by
  refine ⟨⟨h.context.left, h.context.right, ?_⟩, h.memory⟩
  have hcore := h.context.core
  simp only [Context.core, Core.mk.injEq] at hcore ⊢
  simp only [hcore, h.context.functions, and_self]

/-! ## Pipelines -/

/-- A pipeline of faithful passes; renaming does not look at the lenses of functions. -/
structure Pipeline.Faithful (p : Pipeline ρ) : Prop where
  renamers : ∀ pass ∈ p.renamers, pass.Faithful id ∧ pass.Faithful unlensed
  inliners : ∀ pass ∈ p.inliners, pass.Faithful id
  normalizers : ∀ pass ∈ p.normalizers, pass.Faithful id

lemma pipeline_faithful (config : Config) : config.pipeline.Faithful := by
  have hbridges : Pass.bridgeForwarding.Faithful id ∧ Pass.bridgeForwarding.Faithful unlensed :=
    ⟨bridgeForwarding_faithful fun _ => rfl, bridgeForwarding_faithful fun _ => rfl⟩
  refine ⟨?_, ?_, ?_⟩ <;> intro pass hpass <;> simp only [Config.pipeline] at hpass
  · split at hpass
    · exact mem_singleton.1 hpass ▸ hbridges
    · cases hpass
  · split at hpass
    · exact mem_singleton.1 hpass ▸ classInlining_faithful
    · cases hpass
  · rcases mem_cons.1 hpass with rfl | hpass
    · exact phiCleanup_faithful
    · split at hpass
      · exact mem_singleton.1 hpass ▸ blockMerging_faithful
      · cases hpass

namespace Pipeline.Faithful

lemma iterate (hp : p.Faithful) (hst : s.AlikeBy id t) :
    Follows p.iterate p.iterate s t fun _ s' t' => s'.AlikeBy id t' := by
  refine (Pass.Faithful.runPhase (fun q hq => (hp.renamers q hq).1)
    (fun _ hq => absurd hq not_mem_nil) _ hst).bind
    fun _ s1 t1 h => ?_
  refine (refreshAll_follows h.1).bind fun _ s2 t2 h => ?_
  refine (Pass.Faithful.runPhase hp.inliners hp.normalizers _ h.1).bind fun _ s3 t3 h => ?_
  exact (Pass.Faithful.runToFixpoint hp.normalizers _ h.1).bind fun _ s4 t4 h => .pure h.1

lemma iterations (hp : p.Faithful) (limit stable : Nat) (hst : s.AlikeBy id t) :
    Follows (p.iterations limit stable) (p.iterations limit stable) s t
      fun _ s' t' => s'.AlikeBy id t' := by
  induction limit generalizing stable s t with
  | zero => exact .pure hst
  | succ limit ih =>
    refine (hp.iterate hst).bind fun changed s1 t1 hst1 => ?_
    dsimp only
    generalize (if changed = true then 0 else stable + 1) = stable'
    split
    · exact .pure hst1
    · exact (ih _ hst1).bind fun n s2 t2 hst2 => .pure hst2

lemma iterate_again (hp : p.Faithful) (hs : s.context.Sound)
    (hrun : p.iterate.run s = .ok false t) :
    ∃ u, p.iterate.run t = .ok false u ∧ t.AlikeBy id u := by
  have hnone : ∀ q ∈ ([] : List (Pass ρ)), q.Faithful id ∧ q.Faithful unlensed := nofun
  have hrename := Pass.Faithful.runPhase (fun q hq => (hp.renamers q hq).1)
    (fun q hq => (hnone q hq).1) p.maxPhaseIterations
  have hrename' := Pass.Faithful.runPhase (fun q hq => (hp.renamers q hq).2)
    (fun q hq => (hnone q hq).2) p.maxPhaseIterations
  have hinline := Pass.Faithful.runPhase hp.inliners hp.normalizers p.maxPhaseIterations
  have hnormalize := Pass.Faithful.runToFixpoint hp.normalizers p.maxPhaseIterations
  -- the four parts of the first iteration changed nothing but lenses
  obtain ⟨renamed, s1, hrun1, hrun⟩ := bind_ok_iff.1 hrun
  obtain ⟨refreshed, s2, hrun2, hrun⟩ := bind_ok_iff.1 hrun
  obtain ⟨inlined, s3, hrun3, hrun⟩ := bind_ok_iff.1 hrun
  obtain ⟨normalized, s4, hrun4, hrun⟩ := bind_ok_iff.1 hrun
  rw [EStateM.run_pure, EStateM.Result.ok.injEq] at hrun
  obtain ⟨hfalse, rfl⟩ := hrun
  simp only [Bool.or_eq_false_iff] at hfalse
  obtain ⟨⟨⟨rfl, rfl⟩, rfl⟩, rfl⟩ := hfalse
  obtain ⟨-, -, -, h1⟩ := hrename (.refl hs) _ _ hrun1
  replace h1 := h1 rfl
  obtain ⟨_, _, h2, hlenses, hcurrent⟩ := refreshAll_follows (.refl h1.context.right) _ _ hrun2
  obtain ⟨-, -, -, h3⟩ := hinline (.refl h2.context.left) _ _ hrun3
  obtain ⟨-, -, -, h4⟩ := hnormalize (.refl (h3 rfl).context.right) _ _ hrun4
  have h24 := (h3 rfl).trans (h4 rfl)
  have hunlensed : s.AlikeBy unlensed s4 := (h1.weaken.trans (hlenses rfl)).trans h24.weaken
  -- so renaming finds nothing again, all names are current, and the rest is as before
  obtain ⟨u1, hagain1, -⟩ := hrename' hunlensed _ _ hrun1
  obtain ⟨-, -, -, hsame⟩ := hrename (.refl h24.context.right) _ _ hagain1
  have h₂u := h24.trans (hsame rfl)
  have hagain2 := refreshAll_current fun m => (hcurrent m).congr h₂u.context
  obtain ⟨u3, hagain3, h₃u, -⟩ := hinline h₂u _ _ hrun3
  obtain ⟨u4, hagain4, h₄u, -⟩ := hnormalize h₃u _ _ hrun4
  exact ⟨u4, bind_ok_iff.2 ⟨_, _, hagain1, bind_ok_iff.2 ⟨_, _, hagain2, bind_ok_iff.2 ⟨_, _, hagain3,
    bind_ok_iff.2 ⟨_, _, hagain4, rfl⟩⟩⟩⟩, h₄u⟩

lemma iterations_succ (limit : Nat) (hstable : p.stableIterations ≤ 1)
    (hrun : p.iterate.run s = .ok false t) : (p.iterations (limit + 1) 0).run s = .ok 1 t := by
  refine bind_ok_iff.2 ⟨false, t, hrun, ?_⟩
  dsimp only
  rw [if_pos ⟨by simp, by simpa using hstable⟩]
  rfl

/-- A run that ends in front of its limit ends behind an iteration without a change. -/
lemma iterations_end {limit : Nat} (hp : p.Faithful) (hstable : p.stableIterations ≤ 1)
    (hs : s.context.Sound) (hrun : (p.iterations limit 0).run s = .ok n t) (hn : n < limit) :
    ∃ u, u.context.Sound ∧ p.iterate.run u = .ok false t := by
  induction limit generalizing s n with
  | zero => cases hn
  | succ limit ih =>
    obtain ⟨changed, s1, hiterate, hrest⟩ := bind_ok_iff.1 hrun
    cases changed with
    | false =>
      rw [iterations_succ limit hstable hiterate] at hrun
      cases hrun
      exact ⟨s, hs, hiterate⟩
    | true =>
      obtain ⟨_, _, h1⟩ := hp.iterate (.refl hs) _ _ hiterate
      dsimp only at hrest
      rw [if_neg (by simp)] at hrest
      obtain ⟨k, s2, hrun2, ⟨⟩⟩ := bind_ok_iff.1 hrest
      exact ih h1.context.left hrun2 (Nat.lt_of_succ_lt_succ hn)

end Pipeline.Faithful

/-! ## Compilations -/

def lifting (methods : List MethodDef) : Work Unit := do
  let lifted ← (methods.filter fun method => method.code.isSome).mapM liftChecked
  lifted.forM storeLifted

lemma compile_ok_iff {o : Outcome} :
    compile config program methods = .ok o ↔ ∃ c, (lifting methods).run { program, config } = .ok () c ∧
      optimize.run c = .ok o.iterations o.context := by
  have hrun : compile config program methods = .ok o ↔
      (lifting methods >>= fun _ => optimize).run { program, config } =
        .ok o.iterations o.context := by
    rw [lifting, bind_assoc, compile]
    split
    · rename_i n c heq
      refine ⟨fun h => ?_, fun h => ?_⟩
      · cases h
        exact heq
      · cases heq.symm.trans h
        rfl
    · rename_i heq
      exact ⟨nofun, fun h => by cases heq.symm.trans h⟩
  rw [hrun, bind_ok_iff]
  constructor
  · rintro ⟨_, c, hc⟩
    exact ⟨c, hc⟩
  · rintro ⟨c, hc⟩
    exact ⟨(), c, hc⟩

section Following

variable {c d : Context}

lemma liftChecked_quiet (method : MethodDef) :
    Quiet id (liftChecked method) fun lifted => lifted.2.Regular := by
  refine (Quiet.liftMethod method).bind fun f hf => ?_
  have hok : (ofExcept (.ok () : Except Error Unit) : Work Unit) = pure () := rfl
  simp only [hf.toWellFormed.verify, hok, pure_bind, ite_self]
  exact .get_bind (fun _ _ _ => rfl) fun _ => .pure hf

lemma lifting_follows (methods : List MethodDef) (hcd : c.Alike d) :
    Follows (lifting methods) (lifting methods) c d fun _ c' d' => c'.Alike d' := by
  have hstore (lifted : List (MethodRef × Function)) (hregular : ∀ p ∈ lifted, p.2.Regular)
      {c d : Context} (hcd : c.Alike d) : Follows (lifted.forM storeLifted) (lifted.forM storeLifted)
        c d fun _ c' d' => c'.Alike d' := by
    induction lifted generalizing c d with
    | nil => exact .pure hcd
    | cons p rest ih =>
      obtain ⟨hp, hrest⟩ := forall_mem_cons.1 hregular
      refine Follows.bind (P := fun _ c' d' => c'.Alike d') ?_ fun _ c1 d1 hcd1 => ih hrest hcd1
      refine (Quiet.record _ hcd).bind fun _ c1 d1 h => .modify (h.2.1.store hp hp rfl)
  have hlifted := Follows.mapM (f := liftChecked) (g := liftChecked)
    (methods.filter fun method => method.code.isSome)
    (I := fun _ done c' d' => c'.Alike d' ∧ ∀ p ∈ done, p.2.Regular)
    (fun method _ _ done c' d' h => ?_) ⟨hcd, nofun⟩
  · exact hlifted.bind fun lifted c1 d1 h => hstore lifted h.2 h.1
  · refine (liftChecked_quiet method h.1).mono fun p c'' d'' h' => ⟨h'.2.1, fun q hq => ?_⟩
    rcases mem_append.1 hq with hq | hq
    · exact h.2 q hq
    · exact mem_singleton.1 hq ▸ h'.1

lemma optimize_follows (hcd : c.Alike d) :
    Follows optimize optimize c d fun _ c' d' => c'.Alike d' := by
  have hpipeline : c.config.pipeline = d.config.pipeline :=
    congrArg (fun k => k.config.pipeline) hcd.core
  intro n c' hrun
  change optimize c = _ at hrun
  unfold optimize at hrun
  split at hrun
  · rename_i m s' hs
    cases hrun
    obtain ⟨t', ht, hst⟩ := (pipeline_faithful c.config).iterations _ 0 (s := ⟨c, []⟩) (t := ⟨d, []⟩)
      ⟨hcd, rfl⟩ n s' hs
    refine ⟨t'.context, ?_, hst.context⟩
    change optimize d = _
    rw [hpipeline] at ht
    rw [optimize, show d.config.pipeline.run ⟨d, []⟩ = _ from ht]
  · cases hrun

end Following

lemma sound_fresh (program : Program) (config : Config) : Context.Sound { program, config } :=
  ⟨nofun, truthful_of_empty rfl rfl, nofun⟩

lemma sound_of_lifting {c : Context} (h : (lifting methods).run { program, config } = .ok () c)
    (verify : Bool) :
    ∃ d, (lifting methods).run { program, config := { config with verifyAfterPasses := verify } } =
      .ok () d ∧ c.Alike d := by
  have halike : Context.Alike { program, config }
      { program, config := { config with verifyAfterPasses := verify } } := ⟨sound_fresh _ _, sound_fresh _ _, rfl⟩
  exact lifting_follows methods halike _ _ h

/-- Every function of a compiled program is well formed, and checking functions behind passes never makes
a compilation fail or changes its functions. -/
theorem verify_compileProgram {config : Config} {program : Program} {o : Outcome}
    (h : compileProgram config program = .ok o) :
    (∀ p ∈ o.functions, Ssa.verify p.2 = .ok ()) ∧
      ∃ o', compileProgram { config with verifyAfterPasses := true } program = .ok o' ∧
        o'.functions = o.functions ∧ o'.iterations = o.iterations := by
  obtain ⟨c, hlift, hrun⟩ := compile_ok_iff.1 h
  obtain ⟨d, hlift', hcd⟩ := sound_of_lifting hlift true
  obtain ⟨d', hrun', halike⟩ := optimize_follows hcd _ _ hrun
  refine ⟨fun p hp => ?_, ⟨d', o.iterations⟩, compile_ok_iff.2 ⟨d, hlift', hrun'⟩, ?_, rfl⟩
  · exact (halike.left.regular p ((perm_sortBy _ _).mem_iff.1 hp)).toWellFormed.verify
  · rw [Outcome.functions, Outcome.functions, halike.functions]

/-- A class with one field, and a method that makes an instance and reads the field. -/
def boxed : Program :=
  let box : TypeRef := ⟨"LBox;"⟩
  let field : FieldRef := ⟨box, "x", ⟨"I"⟩⟩
  let init : MethodRef := ⟨box, "<init>", ⟨⟨"V"⟩, [⟨"I"⟩]⟩⟩
  let read : MethodRef := ⟨box, "read", ⟨⟨"I"⟩, []⟩⟩
  let main : MethodRef := ⟨⟨"LMain;"⟩, "main", ⟨⟨"I"⟩, []⟩⟩
  let code (instructions : List Code.Instruction) : Option Code.Body :=
    some { maxStack := 3, maxLocals := 2, instructions }
  let defined (ty : TypeRef) (fields : List FieldDef) (methods : List MethodDef) : ClassDef :=
    ⟨ty, .publicOnly, some .root, [], fields, methods⟩
  (({} : Program).addClass (defined box [⟨field, .ofBits 1⟩]
    [⟨init, .ofBits 1, code [.load .object 0, .invoke .special ⟨.root, "<init>", ⟨⟨"V"⟩, []⟩⟩,
      .load .object 0, .load .int 1, .putField field, .ret none]⟩,
    ⟨read, .ofBits 1, code [.load .object 0, .getField field, .ret (some .int)]⟩])).addClass
  (defined main.holder [] [⟨main, .ofBits 9, code [.new box, .dup, .constInt 1,
    .invoke .special init, .invoke .virtual read, .ret (some .int)]⟩])

lemma ok_of_toOption {r : Except Error α} {a : α} (h : r.toOption = some a) : r = .ok a := by
  cases r with
  | ok b => rw [Option.some.inj h]
  | error e => cases h

/-- The compiled method returns the constant. -/
theorem verify_compileProgram_boxed : ∃ o, compileProgram {} boxed = .ok o ∧
    (o.functions.map fun p => p.2.insnCount) = [5, 3, 2] ∧
    (∀ p ∈ o.functions, Ssa.verify p.2 = .ok ()) ∧
    ∃ o', compileProgram { verifyAfterPasses := true } boxed = .ok o' ∧ o'.functions = o.functions := by
  have hcounts : ((compileProgram {} boxed).toOption.map fun o =>
      o.functions.map fun p => p.2.insnCount) = some [5, 3, 2] := by decide +kernel
  obtain ⟨o, ho, hcounts⟩ := Option.map_eq_some_iff.1 hcounts
  replace ho := ok_of_toOption ho
  obtain ⟨hverify, o', ho', hfunctions, -⟩ := verify_compileProgram ho
  exact ⟨o, ho, hcounts, hverify, o', ho', hfunctions⟩

def result? {σ α : Type} : EStateM.Result Error σ α → Option (α × σ)
  | .ok a s => some (a, s)
  | .error _ _ => none

lemma ok_of_result? {σ : Type} {r : EStateM.Result Error σ α} {p : α × σ} (h : result? r = some p) :
    r = .ok p.1 p.2 := by
  cases r with
  | ok a s => rw [← Option.some.inj h]
  | error e s => cases h

/-- However many rounds of inlining it takes, and whatever zeros stand for fields that were not written, a
dissolved allocation makes a function grow by less than the allowance. Lifted functions are regular
(`lift_regular`), and new contexts are sound (`sound_fresh`). -/
theorem insnCount_dissolveSite {c c' : Context} {f : Ssa.Function} {site : Inline.AllocationSite}
    {d : DissolvedSite} (hc : c.Sound) (hf : f.Regular) (hsite : site ∈ Inline.AllocationSite.collect f)
    (hrun : (dissolveSite f site).run c = .ok (.ok d) c') :
    d.func.insnCount < f.insnCount + c.config.classInlining.instructionAllowance := by
  obtain ⟨hs, -⟩ := Inline.standsIn_of_collect hf.exact hsite
  obtain ⟨-, -, hd, -⟩ := QuietAt.dissolveSite hf hs hc.alike hc.alike _ _ hrun
  exact (hd d rfl).2.2

/-- What dissolving the allocation of `boxed` gives, with the function it is dissolved in. -/
def boxedTrial : Option (Ssa.Function × Inline.AllocationSite × DissolvedSite × Context) := do
  let c : Context := { program := boxed, config := {} }
  let f ← (c.setting.body ⟨⟨"LMain;"⟩, "main", ⟨⟨"I"⟩, []⟩⟩).toOption.join
  let site ← (Inline.AllocationSite.collect f).head?
  let (r, c') ← result? ((dissolveSite f site).run c)
  return (f, site, ← r.toOption, c')

/-- Five instructions, two of them calls, become two. -/
theorem insnCount_dissolveSite_boxed : ∃ f site d c', boxedTrial = some (f, site, d, c') ∧
    f.insnCount = 5 ∧ d.func.insnCount = 2 ∧ d.func.insnCount < f.insnCount + 65 := by
  have hcounts : (boxedTrial.map fun p => (p.1.insnCount, p.2.2.1.func.insnCount)) = some (5, 2) := by
    decide +kernel
  obtain ⟨⟨f, site, d, c'⟩, htrial, hcounts⟩ := Option.map_eq_some_iff.1 hcounts
  refine ⟨f, site, d, c', htrial, congrArg Prod.fst hcounts, congrArg Prod.snd hcounts, ?_⟩
  rw [boxedTrial] at htrial
  obtain ⟨g, hg, htrial⟩ := Option.bind_eq_some_iff.1 htrial
  obtain ⟨site', hsite, htrial⟩ := Option.bind_eq_some_iff.1 htrial
  obtain ⟨⟨r, c1⟩, hrun, htrial⟩ := Option.bind_eq_some_iff.1 htrial
  obtain ⟨d', hd, hsame⟩ := Option.bind_eq_some_iff.1 htrial
  cases hsame
  cases r with
  | error reason => cases hd
  | ok d' =>
    cases hd
    have hbody := ok_of_toOption (Option.join_eq_some_iff.1 hg)
    exact insnCount_dissolveSite (sound_fresh _ _) (Setting.regular_of_body hbody).1
      (mem_of_head? hsite) (ok_of_result? hrun)

/-- A pipeline that ends in front of its limit ends at a fixpoint: run again, it ends at once and leaves the
functions and the lenses as they are. -/
theorem run_again {config : Config} {program : Program} {methods : List MethodDef} {c : Context}
    {n : Nat} {s : Session Standard} (hlift : (lifting methods).run { program, config } = .ok () c)
    (hrun : config.pipeline.run.run ⟨c, []⟩ = .ok n s) (hn : n < config.maxIterations) :
    ∃ s', config.pipeline.run.run s = .ok 1 s' ∧ s'.context.functions = s.context.functions ∧
      s'.context.lenses = s.context.lenses ∧ s'.context.currentLens = s.context.currentLens := by
  obtain ⟨_, -, hsound⟩ := sound_of_lifting hlift true
  have hp := pipeline_faithful config
  obtain ⟨u, hu, hlast⟩ := hp.iterations_end le_rfl hsound.left hrun hn
  obtain ⟨s', hagain, halike⟩ := hp.iterate_again hu hlast
  have hlimit : config.maxIterations = config.maxIterations - 1 + 1 := by omega
  refine ⟨s', ?_, ?_, halike.context.lenses.symm, halike.context.currentLens.symm⟩
  · rw [Pipeline.run, show config.pipeline.maxIterations = _ from hlimit]
    exact Pipeline.Faithful.iterations_succ _ le_rfl hagain
  · exact congrArg Assoc.mk halike.context.functions.symm

/-- The second iteration on the boxed constant finds nothing to do, and neither does another run. -/
theorem run_again_boxed : ∃ c s s',
    (lifting boxed.methodsWithCode).run { program := boxed, config := {} } = .ok () c ∧
    (Config.pipeline {}).run.run ⟨c, []⟩ = .ok 2 s ∧
    (Config.pipeline {}).run.run s = .ok 1 s' ∧ s'.context.functions = s.context.functions := by
  have hruns : ((result?
      ((lifting boxed.methodsWithCode).run { program := boxed, config := {} })).bind fun p =>
        (result? ((Config.pipeline {}).run.run ⟨p.2, []⟩)).map Prod.fst) = some 2 := by
    decide +kernel
  obtain ⟨⟨_, c⟩, hlift, hruns⟩ := Option.bind_eq_some_iff.1 hruns
  obtain ⟨⟨_, s⟩, hrun, heq⟩ := Option.map_eq_some_iff.1 hruns
  replace hlift := ok_of_result? hlift
  replace hrun := heq ▸ ok_of_result? hrun
  obtain ⟨s', hagain, hfunctions, -⟩ := run_again hlift hrun (by decide)
  exact ⟨c, s, s', hlift, hrun, hagain, hfunctions⟩

end Dissolve.Optimize
