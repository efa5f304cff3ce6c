import Dissolve.Optimize.Pipeline
import Dissolve.Proofs.Inline.Reconstruction
import Dissolve.Proofs.Lift.Shape
import Dissolve.Proofs.Optimize.Summaries

/-!
# Proofs.Optimize.Following — one run follows another

What passes work on is the `core` of a context, without the record of events, the answers that are kept,
and whether functions are checked. Steps that only ask for summaries, bodies and verdicts are `Quiet`: they
answer alike contexts alike and leave the core alone.
-/

namespace Dissolve

open List

variable {f : Function} {e : Error}

namespace Assoc

variable {α β γ : Type} [DecidableEq α]

lemma find?_map (k : α) (g : β → γ) (ps : List (α × β)) :
    find? k (ps.map (Prod.map id g)) = (find? k ps).map g := by
  induction ps with
  | nil => rfl
  | cons p rest ih =>
    simp only [map_cons, Prod.map, id_eq, find?, ih]
    split <;> rfl

lemma map_put (k : α) (v : β) (g : β → γ) (ps : List (α × β)) :
    (put k v ps).map (Prod.map id g) = put k (g v) (ps.map (Prod.map id g)) := by
  induction ps with
  | nil => rfl
  | cons p rest ih =>
    simp only [map_cons, Prod.map, id_eq, put]
    split
    · rfl
    · rw [← ih]
      rfl

end Assoc

namespace Optimize

open Inline (ClassVerdict Copyable MethodSummary ReceiverUse keepsReceiver receiverUse)
open Ssa (Function)

/-! ## Steps -/

section Steps

variable {σ α β : Type}

/-- Where the first step succeeds, the second gives the same answer, and `Q` holds behind them. -/
def Follows (x y : EStateM Error σ α) (s t : σ) (Q : α → σ → σ → Prop) : Prop :=
  ∀ a s', x.run s = .ok a s' → ∃ t', y.run t = .ok a t' ∧ Q a s' t'

lemma bind_ok_iff {x : EStateM Error σ α} {k : α → EStateM Error σ β} {s s' : σ} {b : β} :
    (x >>= k).run s = .ok b s' ↔ ∃ a s1, x.run s = .ok a s1 ∧ (k a).run s1 = .ok b s' := by
  rw [EStateM.run_bind]
  cases x.run s with
  | ok a s1 => simp
  | error e s1 => simp

namespace Follows

variable {x y : EStateM Error σ α} {k l : α → EStateM Error σ β} {s t : σ} {a : α}
  {P Q : α → σ → σ → Prop} {R : β → σ → σ → Prop}

lemma mono (h : Follows x y s t P) (hPQ : ∀ a s' t', P a s' t' → Q a s' t') :
    Follows x y s t Q := by
  intro a s' hrun
  obtain ⟨t', hrun', hP⟩ := h a s' hrun
  exact ⟨t', hrun', hPQ a s' t' hP⟩

lemma pure (h : Q a s t) : Follows (Pure.pure a) (Pure.pure a) s t Q := by
  rintro _ _ ⟨⟩
  exact ⟨t, rfl, h⟩

lemma throw : Follows (MonadExcept.throw e) y s t Q := nofun

lemma modify {g h : σ → σ} {Q : Unit → σ → σ → Prop} (hq : Q () (g s) (h t)) :
    Follows (modify g) (modify h) s t Q := by
  rintro _ _ ⟨⟩
  exact ⟨h t, rfl, hq⟩

lemma ofExcept {r : Except Error α} (h : ∀ a, r = .ok a → Q a s t) :
    Follows (MonadExcept.ofExcept r) (MonadExcept.ofExcept r) s t Q := by
  cases r with
  | ok a => exact pure (h a rfl)
  | error e => exact throw

lemma bind (hx : Follows x y s t P) (hk : ∀ a s' t', P a s' t' → Follows (k a) (l a) s' t' R) :
    Follows (x >>= k) (y >>= l) s t R := by
  intro b s' hrun
  obtain ⟨a, s1, hrunx, hrunk⟩ := bind_ok_iff.1 hrun
  obtain ⟨t1, hruny, hP⟩ := hx a s1 hrunx
  obtain ⟨t', hrunl, hR⟩ := hk a s1 t1 hP b s' hrunk
  exact ⟨t', bind_ok_iff.2 ⟨a, t1, hruny, hrunl⟩, hR⟩

lemma get_bind {k l : σ → EStateM Error σ β} (h : Follows (k s) (l t) s t R) :
    Follows (get >>= k) (get >>= l) s t R := h

lemma mapM {f g : β → EStateM Error σ α} {I : List β → List α → σ → σ → Prop} (xs : List β)
    (hstep : ∀ x ∈ xs, ∀ before done s t, I before done s t →
      Follows (f x) (g x) s t fun a => I (before ++ [x]) (done ++ [a])) (h : I [] [] s t) :
    Follows (xs.mapM f) (xs.mapM g) s t (I xs) := by
  have hrest (ys : List β) (hys : ∀ y ∈ ys, y ∈ xs) (before : List β) (done : List α) (s t : σ)
      (h : I before done s t) : Follows (ys.mapM f) (ys.mapM g) s t
        fun as => I (before ++ ys) (done ++ as) := by
    induction ys generalizing before done s t with
    | nil =>
      rw [mapM_nil, mapM_nil]
      exact pure (by rwa [append_nil, append_nil])
    | cons y ys ih =>
      obtain ⟨hy, hys⟩ := forall_mem_cons.1 hys
      rw [mapM_cons, mapM_cons]
      refine bind (hstep y hy before done s t h) fun a s' t' h' => ?_
      refine bind (ih hys _ _ s' t' h') fun as s'' t'' h'' => ?_
      rw [append_assoc, append_assoc] at h''
      exact pure h''
  exact hrest xs (fun _ => id) [] [] s t h

end Follows

/-- Related states give the same answer and related states again, and the state stays related to
itself where the answer is that nothing changed. -/
def Faithful (R : σ → σ → Prop) (x : EStateM Error σ Bool) : Prop :=
  ∀ ⦃s t⦄, R s t → Follows x x s t fun changed s' t' => R s' t' ∧ (changed = false → R s s')

end Steps

/-! ## What answers depend on -/

namespace Setting

variable {S S' : Setting} {method : MethodRef}

lemma Harmless.congr (hbody : S.body = S'.body) (h : S.Harmless method) : S'.Harmless method := by
  have hreturns : S.returns = S'.returns := by
    funext m
    simp only [returns, hbody]
  induction h with
  | intro opened within _ unused ih =>
    exact .intro ⟨hbody ▸ opened.body, opened.receiver⟩ within ih (hreturns ▸ unused)

lemma Safe.congr (hbody : S.body = S'.body) {v : ValueId} {s : Site}
    (h : S.Safe method f v s) : S'.Safe method f v s := by
  refine h.imp_right ?_
  rintro ⟨target, dest, hasks, hharmless, hkeeps⟩
  refine ⟨target, dest, hasks, hharmless.congr hbody, ?_⟩
  simpa only [returns, hbody] using hkeeps

lemma Fails.congr (hbody : S.body = S'.body) (h : S.Fails method e) : S'.Fails method e := by
  induction h with
  | body failed => exact .body (hbody ▸ failed)
  | call opened users safe asks _ ih =>
    exact .call ⟨hbody ▸ opened.body, opened.receiver⟩ users
      (fun u hu => (safe u hu).congr hbody) asks ih

lemma summary_congr (hprogram : S.program = S'.program) (hbody : S.body = S'.body) :
    S.summary = S'.summary := by
  have huse : S.use = S'.use := by
    funext m
    by_cases hfails : ∃ e, S.Fails m e
    · obtain ⟨e, hfails⟩ := hfails
      rw [use_of_fails hfails, use_of_fails (hfails.congr hbody)]
    · by_cases hharmless : S.Harmless m
      · rw [use_of_harmless hharmless, use_of_harmless (hharmless.congr hbody)]
        simp only [returns, hbody]
      · rw [use_of_neither hharmless fun e h => hfails ⟨e, h⟩,
          use_of_neither (fun h => hharmless (h.congr hbody.symm))
            fun e h => hfails ⟨e, h.congr hbody.symm⟩]
  funext m
  simp only [summary, hprogram, hbody, huse]

lemma regular_of_liftMethod {definition : MethodDef}
    (h : S.liftMethod definition = .ok f) : f.Regular ∧ Copyable f := by
  obtain ⟨s, hs⟩ : ∃ s, Lift.lift s = .ok f := by
    unfold Setting.liftMethod Lift.liftMethod at h
    cases hcode : definition.code with
    | none =>
      rw [hcode] at h
      cases h
    | some body =>
      simp only [hcode] at h
      cases hview : S.lenses.view body.lens S.currentLens with
      | error e =>
        rw [hview] at h
        cases h
      | ok view =>
        rw [hview] at h
        exact ⟨_, h⟩
  exact ⟨(Lift.lift_regular hs).1, Lift.lift_copyable hs⟩

lemma regular_of_body (h : S.body method = .ok (some f)) : f.Regular ∧ Copyable f := by
  obtain ⟨definition, -, -, -, hlift⟩ := definition_of_body h
  exact regular_of_liftMethod hlift

end Setting

/-! ## Contexts -/

structure Core where
  program : Program
  config : Config
  functions : List (MethodRef × Function)
  lenses : Lens.Chain
  currentLens : Option LensId

namespace Context

variable {c d c' : Context} {seen : Function → Function} {method : MethodRef}

/-- The context without the record of events, the answers that are kept, and whether functions are
checked. Of a function it has what is `seen`. -/
def core (seen : Function → Function) (c : Context) : Core where
  program := c.program
  config := { c.config with verifyAfterPasses := false }
  functions := c.functions.pairs.map (Prod.map id seen)
  lenses := c.lenses
  currentLens := c.currentLens

/-- The functions are regular, and the answers that are kept are right. -/
structure Sound (c : Context) : Prop where
  regular : ∀ p ∈ c.functions.pairs, p.2.Regular
  truthful : Truthful c.setting c
  verdicts : ∀ ty verdict, c.verdicts.get? ty = some verdict →
    verdict = ClassVerdict.compute c.program ty

/-- Two sound contexts with the same core. -/
structure AlikeBy (seen : Function → Function) (c d : Context) : Prop where
  left : c.Sound
  right : d.Sound
  core : c.core seen = d.core seen

abbrev Alike : Context → Context → Prop := AlikeBy id

namespace Sound

lemma alike (h : c.Sound) : c.AlikeBy seen c := ⟨h, h, rfl⟩

lemma get? (h : c.Sound) (hf : c.functions.get? method = some f) : f.Regular :=
  h.regular _ (Assoc.mem_of_find? hf)

lemma record (h : c.Sound) (e : Event) : (c.record e).Sound :=
  ⟨h.regular, ⟨rfl, h.truthful.bodies, h.truthful.summaries⟩, h.verdicts⟩

lemma store (h : c.Sound) (hf : f.Regular) : (c.store method f).Sound := by
  refine ⟨fun p hp => ?_, ⟨rfl, h.truthful.bodies, h.truthful.summaries⟩, h.verdicts⟩
  rcases Assoc.mem_of_mem_put hp with rfl | hp
  · exact hf
  · exact h.regular p hp

lemma insertVerdict (h : c.Sound) {ty : TypeRef} {verdict : ClassVerdict}
    (hv : verdict = .compute c.program ty) :
    Sound { c with verdicts := c.verdicts.insert ty verdict } := by
  refine ⟨h.regular, ⟨rfl, h.truthful.bodies, h.truthful.summaries⟩, fun ty' verdict' h' => ?_⟩
  rcases Assoc.of_get?_insert h' with ⟨rfl, rfl⟩ | h'
  · exact hv
  · exact h.verdicts ty' verdict' h'

end Sound

namespace AlikeBy

section

variable (h : c.AlikeBy seen d)
include h

lemma symm : d.AlikeBy seen c := ⟨h.right, h.left, h.core.symm⟩

lemma trans (h' : d.AlikeBy seen c') : c.AlikeBy seen c' :=
  ⟨h.left, h'.right, h.core.trans h'.core⟩

lemma program : c.program = d.program := congrArg Core.program h.core

lemma classInlining : c.config.classInlining = d.config.classInlining :=
  congrArg (fun k => k.config.classInlining) h.core

lemma lenses : c.lenses = d.lenses := congrArg Core.lenses h.core

lemma currentLens : c.currentLens = d.currentLens :=
  congrArg Core.currentLens h.core

lemma methods : c.methods = d.methods := by
  have hkeys := congrArg (fun k => k.functions.map Prod.fst) h.core
  simp only [Context.core, map_map] at hkeys
  exact congrArg (sortBy _) hkeys

lemma map_get? (method : MethodRef) :
    (c.functions.get? method).map seen = (d.functions.get? method).map seen := by
  have hfind := congrArg (fun k => Assoc.find? method k.functions) h.core
  simp only [Context.core, Assoc.find?_map] at hfind
  exact hfind

lemma store {g : Function} (hf : f.Regular) (hg : g.Regular)
    (heq : seen f = seen g) : (c.store method f).AlikeBy seen (d.store method g) := by
  refine ⟨h.left.store hf, h.right.store hg, ?_⟩
  have hcore := h.core
  simp only [Context.core, Context.store, Assoc.insert, Assoc.map_put, heq, Core.mk.injEq] at hcore ⊢
  simp only [hcore, and_self]

end

section

variable (h : c.Alike d)
include h

lemma functions : c.functions.pairs = d.functions.pairs := by
  simpa [Context.core] using congrArg Core.functions h.core

lemma get? (method : MethodRef) : c.functions.get? method = d.functions.get? method := by
  simpa using h.map_get? method

lemma liftMethod : c.setting.liftMethod = d.setting.liftMethod := by
  have hlift : c.config.lift = d.config.lift := congrArg (fun k => k.config.lift) h.core
  funext m
  simp only [Setting.liftMethod, Context.setting, hlift, h.lenses, h.currentLens]

lemma body : c.setting.body = d.setting.body := by
  have hprogram : c.setting.program = d.setting.program := h.program
  funext m
  simp only [Setting.body, hprogram, h.liftMethod]

lemma summary : c.setting.summary = d.setting.summary :=
  Setting.summary_congr h.program h.body

end

end AlikeBy

end Context

/-! ## Steps that ask -/

section Asking

variable {α β : Type} {x : Work α} {k : α → Work β} {a : α} {A' : α → Prop}

/-- A step that leaves the functions and the verdicts as they are. -/
def Frames (x : Work α) : Prop :=
  ∀ ⦃c a c'⦄, x.run c = .ok a c' → c'.functions = c.functions ∧ c'.verdicts = c.verdicts

namespace Frames

lemma pure (a : α) : Frames (Pure.pure a : Work α) := by
  rintro c _ _ ⟨⟩
  exact ⟨rfl, rfl⟩

lemma ofExcept (r : Except Error α) : Frames (MonadExcept.ofExcept r : Work α) := by
  cases r with
  | ok a => exact pure a
  | error e =>
    intro c a c' hrun
    cases hrun

lemma bind (hx : Frames x) (hk : ∀ a, Frames (k a)) : Frames (x >>= k) := by
  intro c b c' hrun
  obtain ⟨a, c1, hrunx, hrunk⟩ := bind_ok_iff.1 hrun
  obtain ⟨hfunctions, hverdicts⟩ := hx hrunx
  obtain ⟨hfunctions', hverdicts'⟩ := hk a hrunk
  exact ⟨hfunctions'.trans hfunctions, hverdicts'.trans hverdicts⟩

lemma get_bind {k : Context → Work β} (hk : ∀ c, Frames (k c)) : Frames (get >>= k) :=
  fun c _ _ hrun => hk c hrun

lemma keep (hx : Frames x) {keep : α → Context → Context} {b : α → β}
    (h : ∀ a c, (keep a c).functions = c.functions ∧ (keep a c).verdicts = c.verdicts) :
    Frames (do let a ← x; modify (keep a); return b a) :=
  hx.bind fun a => bind (fun c _ _ hrun => by cases hrun; exact h a c) fun _ => pure _

lemma liftMethod (method : MethodDef) : Frames (liftMethod method) := by
  refine get_bind fun c => ?_
  split
  · exact ofExcept _
  · exact (ofExcept _).bind fun view => ofExcept _

lemma calleeBody (method : MethodRef) : Frames (calleeBody method) := by
  refine get_bind fun c => ?_
  split
  · exact pure _
  · split
    · exact pure _
    · split
      · exact pure _
      · exact (liftMethod _).keep fun _ _ => ⟨rfl, rfl⟩

section

variable {ask : MethodRef → Work (Option ReceiverUse)} (hask : ∀ m, Frames (ask m))
include hask

lemma receiverUse (method : MethodRef) (f : Function) (v : ValueId) (returns : Bool)
    (users : List Site) : Frames (Inline.receiverUse ask method .root f v returns users) := by
  induction users generalizing returns with
  | nil => exact pure _
  | cons s rest ih =>
    rw [receiverUse_cons]
    split
    · exact ih _
    · exact pure _
    · refine (hask _).bind fun use => ?_
      split
      · exact ih _
      · exact pure _

lemma analyze (definition : MethodDef) (f : Function) :
    Frames (MethodSummary.analyze ask definition f .root) := by
  rw [MethodSummary.analyze]
  split
  · exact (receiverUse hask _ _ _ _ _).bind fun use => pure _
  · exact bind (pure _) fun use => pure _

end

lemma summaryFrom (fuel : Nat) (stack : List MethodRef) (method : MethodRef) :
    Frames (summaryFrom fuel stack method) := by
  induction fuel generalizing stack method with
  | zero => exact pure _
  | succ fuel ih =>
    have hask (callee : MethodRef) : Frames (do
        return (← Optimize.summaryFrom fuel (method :: stack) callee).map MethodSummary.receiver) :=
      (ih _ _).bind fun _ => pure _
    refine get_bind fun c => ?_
    split
    · exact pure _
    · split
      · exact pure _
      · refine (calleeBody method).bind fun body => ?_
        split
        · exact (analyze hask _ _).keep fun _ _ => ⟨rfl, rfl⟩
        · exact pure _

lemma summary (method : MethodRef) : Frames (summary method) :=
  get_bind fun _ => summaryFrom _ _ _

end Frames

/-- A step that answers alike contexts alike, with `A` of the answer, and leaves the core alone. -/
def Quiet (seen : Function → Function) (x : Work α) (A : α → Prop) : Prop :=
  ∀ ⦃c d⦄, c.AlikeBy seen d → Follows x x c d fun a c' d' =>
    A a ∧ c'.AlikeBy seen d' ∧ c.AlikeBy seen c'

namespace Quiet

variable {A : α → Prop} {B : β → Prop} {seen : Function → Function}

lemma pure (h : A a) : Quiet seen (Pure.pure a) A :=
  fun _ _ hcd => .pure ⟨h, hcd, hcd.left.alike⟩

lemma throw : Quiet seen (MonadExcept.throw e) A := fun _ _ _ => .throw

lemma bind (hx : Quiet seen x A) (hk : ∀ a, A a → Quiet seen (k a) B) : Quiet seen (x >>= k) B := by
  intro c d hcd
  refine (hx hcd).bind ?_
  rintro a c' d' ⟨ha, hcd', hcc'⟩
  exact (hk a ha hcd').mono fun b c'' d'' h => ⟨h.1, h.2.1, hcc'.trans h.2.2⟩

lemma mono (h : Quiet seen x A) (hA : ∀ a, A a → A' a) : Quiet seen x A' :=
  fun _ _ hcd => (h hcd).mono fun a _ _ h' => ⟨hA a h'.1, h'.2⟩

lemma get_bind {k : Context → Work α} (hk : ∀ c d, c.AlikeBy seen d → k c = k d)
    (hquiet : ∀ c, Quiet seen (k c) A) : Quiet seen (get >>= k) A := by
  intro c d hcd
  have hfollow := hquiet c hcd
  intro a c' hrun
  obtain ⟨d', hrun', hq⟩ := hfollow a c' hrun
  exact ⟨d', by rw [hk c d hcd] at hrun'; exact hrun', hq⟩

end Quiet

/-- A step that is quiet on the contexts that are like `k`. -/
def QuietAt (k : Context) (x : Work α) (A : α → Prop) : Prop :=
  ∀ ⦃c d⦄, k.Alike c → c.Alike d → Follows x x c d fun a c' d' =>
    A a ∧ c'.Alike d' ∧ c.Alike c'

namespace QuietAt

variable {A : α → Prop} {B : β → Prop} {k : Context}

lemma of_quiet (h : Quiet id x A) : QuietAt k x A := fun _ _ _ hcd => h hcd

lemma pure (h : A a) : QuietAt k (Pure.pure a) A := of_quiet (.pure h)

lemma bind {l : α → Work β} (hx : QuietAt k x A) (hl : ∀ a, A a → QuietAt k (l a) B) :
    QuietAt k (x >>= l) B := by
  intro c d hkc hcd
  refine (hx hkc hcd).bind ?_
  rintro a c' d' ⟨ha, hcd', hcc'⟩
  exact (hl a ha (hkc.trans hcc') hcd').mono fun b c'' d'' h => ⟨h.1, h.2.1, hcc'.trans h.2.2⟩

lemma mono (h : QuietAt k x A) (hA : ∀ a, A a → A' a) : QuietAt k x A' :=
  fun _ _ hkc hcd => (h hkc hcd).mono fun a _ _ h' => ⟨hA a h'.1, h'.2⟩

lemma get_bind {l : Context → Work α} (hl : ∀ c d, c.Alike d → l c = l d)
    (hquiet : QuietAt k (l k) A) : QuietAt k (get >>= l) A := by
  intro c d hkc hcd a c' hrun
  obtain ⟨d', hrun', hq⟩ := hquiet hkc hcd a c' (by rw [hl k c hkc]; exact hrun)
  exact ⟨d', by rw [hl k c hkc, hl c d hcd] at hrun'; exact hrun', hq⟩

lemma of_yields {r : Setting → Except Error α} (hframes : Frames x)
    (hyields : ∀ c : Context, c.Sound → Yields x c (r c.setting) (Truthful c.setting))
    (hcongr : ∀ c d : Context, c.Alike d → r c.setting = r d.setting) :
    QuietAt k x fun a => r k.setting = .ok a := by
  have hsound {c c' : Context} {a : α} (hc : c.Sound) (hrun : x.run c = .ok a c')
      (hc' : Truthful c.setting c') : c.Alike c' := by
    obtain ⟨hfunctions, hverdicts⟩ := hframes hrun
    have hprogram : c'.program = c.program := congrArg Setting.program hc'.setting
    refine ⟨hc, ⟨hfunctions ▸ hc.regular, hc'.setting.symm ▸ hc', ?_⟩, ?_⟩
    · rw [hverdicts, hprogram]
      exact hc.verdicts
    · have := hc'.setting
      simp only [Context.setting, Setting.mk.injEq] at this
      simp only [Context.core, hfunctions, this]
  intro c d hkc hcd a c' hrun
  have hyc := hyields c hcd.left
  have hyd := hyields d hcd.right
  have hanswer : r c.setting = .ok a := by
    rw [← hyc.answer, answer, hrun]
  have hafter : Truthful c.setting c' := by
    have := hyc.after
    rwa [after, hrun] at this
  rw [← hcongr c d hcd, hanswer] at hyd
  obtain ⟨d', hrun', hd'⟩ := hyd.run_ok
  have hcc' := hsound hcd.left hrun hafter
  exact ⟨d', hrun', (hcongr k c hkc).trans hanswer, hcc'.symm.trans (hcd.trans (hsound hcd.right hrun' hd')), hcc'⟩

lemma summary (method : MethodRef) :
    QuietAt k (summary method) fun o => k.setting.summary method = .ok o :=
  of_yields (r := (·.summary method)) (.summary method) (fun _ hc => summary_yields hc.truthful method)
    fun _ _ hcd => congrFun hcd.summary method

lemma calleeBody (method : MethodRef) :
    QuietAt k (calleeBody method) fun o => k.setting.body method = .ok o :=
  of_yields (r := (·.body method)) (.calleeBody method) (fun _ hc => calleeBody_yields hc.truthful method)
    fun _ _ hcd => congrFun hcd.body method

end QuietAt

namespace Quiet

variable {seen : Function → Function}

lemma liftMethod (method : MethodDef) : Quiet id (liftMethod method) Function.Regular := by
  intro c d hcd
  refine (QuietAt.of_yields (r := (·.liftMethod method)) (.liftMethod method)
    (fun _ hc => liftMethod_yields hc.truthful method)
    (fun _ _ hcd => congrFun hcd.liftMethod method) hcd.left.alike hcd).mono fun f _ _ h => ?_
  exact ⟨(Setting.regular_of_liftMethod h.1).1, h.2⟩

lemma forM {step : α → Work PUnit} (hstep : ∀ x, Quiet seen (step x) fun _ => True)
    (xs : List α) : Quiet seen (xs.forM step) fun _ => True := by
  induction xs with
  | nil => exact pure trivial
  | cons x xs ih => exact (hstep x).bind fun _ _ => ih

lemma record (e : Event) : Quiet seen (record e) fun _ => True := by
  intro c d hcd
  exact .modify ⟨trivial, ⟨hcd.left.record e, hcd.right.record e, hcd.core⟩, hcd.left,
    hcd.left.record e, rfl⟩

lemma classVerdict (ty : TypeRef) : Quiet id (classVerdict ty) fun _ => True := by
  have hverdict {c : Context} (hc : c.Sound) : Yields (Optimize.classVerdict ty) c
      (.ok (.compute c.program ty)) c.Alike := by
    refine .get_bind ?_
    cases hkept : c.verdicts.get? ty with
    | some verdict =>
      rw [hc.verdicts ty verdict hkept]
      exact .pure hc.alike
    | none =>
      refine Yields.bind (Q := c.Alike) (.modify ⟨hc, hc.record _, rfl⟩) fun c' hc' => ?_
      refine Yields.bind (Q := c.Alike) (.modify ?_) fun _ h => .pure h
      exact ⟨hc, hc'.right.insertVerdict (hc'.program ▸ rfl), hc'.core⟩
  intro c d hcd a c' hrun
  obtain ⟨c1, hrunc, hc1⟩ := (hverdict hcd.left).run_ok
  obtain ⟨d1, hrund, hd1⟩ := (hverdict hcd.right).run_ok
  cases hrun.symm.trans hrunc
  exact ⟨d1, by rw [hcd.program]; exact hrund, trivial, hc1.symm.trans (hcd.trans hd1), hc1⟩

lemma onCopy (f : Function) (edit : Ssa.Edit α) :
    Quiet seen (onCopy f edit) fun p => edit.run f = .ok p.1 p.2 := by
  unfold Optimize.onCopy
  split
  · exact pure ‹_›
  · exact throw

end Quiet

end Asking

end Optimize

end Dissolve
