import Dissolve.Proofs.Inline.Budget
import Dissolve.Proofs.Optimize.Following

/-!
# Proofs.Optimize.Dissolving — dissolving allocations is faithful

A step that says whether it changed something is `Faithful` if alike states give the same answer and
alike states again, and if nothing changed where it says so. The trial of an allocation only asks and
works on copies, so it is quiet, and what it hands back is regular: as long as the allocation stands,
calls that read the instance are replaced one after the other (`QuietAt.inlineCandidates`), and an
allocation that went away together with one of them leaves nothing to do (`QuietAt.dissolveRounds`). What
the copies cost is charged on the way.
-/

namespace Dissolve.Optimize

open List
open Inline (AllocationSite Candidate SiteAnalysis UseVerdict standsIn_of_collect)
open Ssa (Function)

variable {f : Function} {site : AllocationSite} {method : MethodRef}

/-! ## The uses of an instance -/

lemma Setting.instructionCount_of_summary {S : Setting} {s : Inline.MethodSummary}
    (hs : S.summary method = .ok (some s)) (hbody : S.body method = .ok (some f)) :
    s.instructionCount = Inline.cost f := by
  obtain ⟨definition, hdef, -⟩ := definition_of_body hbody
  cases hreceiver : Inline.receiverOf? f with
  | none =>
    rw [summary_of_static hdef hbody hreceiver] at hs
    cases hs
    rfl
  | some v =>
    rw [summary_of_opened hdef ⟨hbody, hreceiver⟩] at hs
    generalize Inline.receiverUse S.use method .root f v false (f.value v).users = use at hs
    cases use <;> cases hs
    rfl

/-- A call on the instance that costs what its body costs. -/
structure Priced (k : Context) (f : Function) (site : AllocationSite) (candidate : Candidate) :
    Prop where
  reads : f.Reads site.value (.insn candidate.call)
  cost : ∀ body, k.setting.body candidate.target = .ok (some body) →
    candidate.cost = Inline.cost body

namespace QuietAt

variable {k : Context}

lemma judgeUse (program : Program) (c : ClassDef) {user : Site} (huser : f.Reads site.value user) :
    QuietAt k (Inline.judgeUse program Optimize.summary f site c user)
      fun v => ∀ candidate, v = .candidate candidate → Priced k f site candidate := by
  have hrejected {reason : Inline.SiteRejection} (candidate : Candidate) :
      UseVerdict.rejected reason = .candidate candidate → Priced k f site candidate := nofun
  cases user with
  | phi p => exact pure hrejected
  | insn i =>
    rw [Inline.judgeUse]
    split
    · rw [Inline.judgeField]
      exact pure fun k h => by split at h <;> cases h
    · rw [Inline.judgeWrite]
      exact pure fun k h => by split_ifs at h
    · rw [Inline.judgeCall]
      split_ifs
      · exact pure hrejected
      · exact pure hrejected
      · exact pure nofun
      · refine (summary _).bind fun o ho => pure fun k h => ?_
        simp only [Inline.judgeConstructor] at h
        split at h <;> try split at h
        all_goals cases h
        exact ⟨huser, fun body => Setting.instructionCount_of_summary ho⟩
      · exact pure hrejected
      · split
        · exact pure hrejected
        · refine (summary _).bind fun o ho => pure fun k h => ?_
          simp only [Inline.judgeVirtual] at h
          split at h <;> try split_ifs at h
          all_goals cases h
          exact ⟨huser, fun body => Setting.instructionCount_of_summary ho⟩
    · exact pure hrejected

lemma analyzeSite (hf : f.Regular) (c : ClassDef) : QuietAt k (analyzeSite f site c) fun a =>
    ∀ candidates, a = .eligible candidates → ∀ x ∈ candidates, Priced k f site x := by
  have hjudge (program : Program) (users : List Site) (found : List Candidate)
      (husers : ∀ u ∈ users, f.Reads site.value u) (hfound : ∀ x ∈ found, Priced k f site x) :
      QuietAt k (Inline.judgeUses program Optimize.summary f site c found users) fun a =>
        ∀ candidates, a = .eligible candidates → ∀ x ∈ candidates, Priced k f site x := by
    induction users generalizing found with
    | nil =>
      refine pure fun candidates heq => ?_
      cases heq
      exact hfound
    | cons user rest ih =>
      obtain ⟨huser, hrest⟩ := forall_mem_cons.1 husers
      refine (judgeUse program c huser).bind fun v hv => ?_
      cases v with
      | rejected reason => exact pure nofun
      | harmless => exact ih found hrest hfound
      | candidate x =>
        refine ih _ hrest fun y hy => ?_
        rcases mem_append.1 hy with hy | hy
        · exact hfound y hy
        · rw [mem_singleton.1 hy]
          exact hv x rfl
  refine get_bind (fun c d hcd => by rw [hcd.program]) ?_
  exact hjudge k.program _ [] (fun u hu => (hf.exact.users_iff _ u).1 hu) nofun

/-! ## Trying an allocation -/

theorem inlineCandidates (candidates : List Candidate) (calls : List MethodRef) (hf : f.Regular)
    (hs : site.Standing f) (hcalls : ∀ x ∈ candidates, x.call.index < f.insns.size ∧
      (f.LiveInsn x.call → Priced k f site x)) :
    QuietAt k (inlineCandidates f calls candidates) fun r => ∀ g calls', r = .ok (g, calls') →
      g.Regular ∧ f.Persists g ∧ site.Standing g ∧ g.insnCount + site.lost g ≤
        f.insnCount + site.lost f + (SiteAnalysis.eligible candidates).cost := by
  induction candidates generalizing f calls with
  | nil =>
    refine pure fun g calls' heq => ?_
    cases heq
    exact ⟨hf, .refl f, hs, le_rfl⟩
  | cons x rest ih =>
    refine (calleeBody x.target).bind fun o hbody => ?_
    cases o with
    | none => exact pure nofun
    | some body =>
      refine (of_quiet (.onCopy f (Inline.inlineCall x.call body))).bind fun p hrun => ?_
      obtain ⟨o, h⟩ := p
      cases o with
      | none => exact pure nofun
      | some answer =>
        obtain ⟨hregular, hcopy⟩ := Setting.regular_of_body hbody
        -- the call is live, so it reads the instance and the allocation stands
        have hpriced : Priced k f site x := by
          obtain ⟨kind, target, args, hinvoke⟩ := Inline.invoke_of_inlineCall hrun
          exact (hcalls x mem_cons_self).2 (hf.exact.live_of_op (by simp [hinvoke]))
        have hstands : site.StandsIn f := by
          refine hs.resolve_right ?_
          rintro ⟨_, _, hundefined⟩
          have := Inline.unread_of_undefined hf.toWellFormed hundefined
          have hmem := (hf.exact.users_iff _ _).2 hpriced.reads
          rw [this] at hmem
          cases hmem
        obtain ⟨hh, hpersists⟩ := Inline.regular_inlineCall hf hregular hcopy hrun
        obtain ⟨hs', hstill⟩ := Inline.standing_inlineCall hf hregular hcopy hrun hstands
        have hcount := Inline.insnCount_inlineCall hf hregular hcopy hrun hstands
        refine (ih _ hh hs' fun y hy => ?_).mono fun r h g calls' heq => ?_
        · obtain ⟨hlt, hlive⟩ := hcalls y (mem_cons_of_mem x hy)
          refine ⟨hlt.trans_le hpersists.size, fun hlive' => ?_⟩
          have hy := hlive (hpersists.insn y.call hlt hlive').1
          exact ⟨hstill y.call hy.reads hlive', hy.cost⟩
        · obtain ⟨hg, hpersists', hs'', hcount'⟩ := h g calls' heq
          refine ⟨hg, hpersists.trans hpersists', hs'', ?_⟩
          have hcost := hpriced.cost body hbody
          simp only [SiteAnalysis.cost, map_cons, foldr_cons] at hcount hcount' ⊢
          omega

theorem dissolveRounds (c : ClassDef) (rounds spent : Nat) (calls : List MethodRef) (hf : f.Regular)
    (hs : site.Standing f) (hspent : spent ≤ k.config.classInlining.instructionAllowance) :
    QuietAt k (dissolveRounds site c rounds spent calls f) fun r => ∀ d, r = .ok d →
      d.func.Regular ∧ f.Persists d.func ∧ d.func.insnCount + spent <
        f.insnCount + site.lost f + k.config.classInlining.instructionAllowance := by
  induction rounds using Nat.strong_induction_on generalizing spent calls f with
  | _ rounds ih =>
    rw [Optimize.dissolveRounds]
    refine (analyzeSite hf c).bind fun a hpriced => ?_
    split
    · exact pure nofun
    · refine (of_quiet (.onCopy f (Inline.reconstruct site .root))).bind fun p hrun =>
        pure fun d heq => ?_
      cases heq
      obtain ⟨hg, hpersists⟩ := hs.regular_reconstruct hf hrun
      have hcount := hs.insnCount_reconstruct hf hrun
      refine ⟨hg, hpersists, ?_⟩
      dsimp only
      omega
    · rename_i candidates _
      cases rounds with
      | zero => exact pure nofun
      | succ rounds =>
        refine get_bind (fun c d hcd => by rw [hcd.classInlining]) ?_
        dsimp only
        split
        · exact pure nofun
        · rename_i hallowed
          have hcalls : ∀ x ∈ candidates, x.call.index < f.insns.size ∧
              (f.LiveInsn x.call → Priced k f site x) := by
            intro x hx
            have hx := hpriced candidates rfl x hx
            exact ⟨Function.lt_of_reads hx.reads, fun _ => hx⟩
          refine (inlineCandidates candidates calls hf hs hcalls).bind fun r hr => ?_
          split
          · exact pure nofun
          · rename_i g calls'
            obtain ⟨hg, hpersists, hs', hcount⟩ := hr g calls' rfl
            refine (ih rounds (Nat.lt_succ_self _) _ _ hg hs' (Nat.not_lt.1 hallowed)).mono
              fun r hr d heq => ?_
            obtain ⟨hd, hpersists', hcount'⟩ := hr d heq
            exact ⟨hd, hpersists.trans hpersists', by omega⟩

lemma dissolveSite (hf : f.Regular) (hs : site.StandsIn f) :
    QuietAt k (dissolveSite f site) fun r => ∀ d, r = .ok d →
      d.func.Regular ∧ f.Persists d.func ∧
        d.func.insnCount < f.insnCount + k.config.classInlining.instructionAllowance := by
  refine (of_quiet (.classVerdict site.ty)).bind fun verdict _ => ?_
  cases verdict with
  | ineligible reason => exact pure nofun
  | eligible =>
    refine get_bind (fun c d hcd => by rw [hcd.program, hcd.classInlining]) ?_
    split
    · exact pure nofun
    · refine (dissolveRounds _ _ _ _ hf (.inl hs) (Nat.zero_le _)).mono fun r hr d heq => ?_
      obtain ⟨hd, hpersists, hcount⟩ := hr d heq
      rw [AllocationSite.lost, hs.live hf.exact] at hcount
      exact ⟨hd, hpersists, hcount⟩

end QuietAt

/-- What is known behind a trial of an allocation of the function `f` of a method. -/
structure Tried (method : MethodRef) (f : Function) (c : Context) (changed : Bool) (c' d' : Context) :
    Prop where
  alike : c'.Alike d'
  same : changed = false → c.Alike c'
  persists : ∃ g, c'.functions.get? method = some g ∧ f.Persists g

lemma trySite_follows {c d : Context} (hcd : c.Alike d) (hf : c.functions.get? method = some f)
    (hs : f.LiveInsn site.insn → site.StandsIn f) :
    Follows (trySite method site) (trySite method site) c d (Tried method f c) := by
  refine .get_bind ?_
  rw [← hcd.get? method, hf]
  dsimp only
  split
  · exact .pure ⟨hcd, fun _ => hcd.left.alike, f, hf, .refl f⟩
  · rename_i hlive
    have hregular := hcd.left.get? hf
    refine (QuietAt.dissolveSite hregular (hs (by simpa using hlive)) hcd.left.alike hcd).bind ?_
    rintro r c1 d1 ⟨hr, hcd1, hcc1⟩
    cases r with
    | error reason =>
      refine .get_bind ?_
      rw [← hcd1.classInlining]
      have hquiet (log : Bool) (e : Event) :
          Quiet id (if log = true then do record e; return false else return false) fun _ => True := by
        split
        · exact (Quiet.record e).bind fun _ _ => .pure trivial
        · exact .pure trivial
      refine (hquiet _ _ hcd1).mono ?_
      rintro _ c2 d2 ⟨_, hcd2, hcc2⟩
      have hcc := hcc1.trans hcc2
      exact ⟨hcd2, fun _ => hcc, f, by rw [← hcc.get?, hf], .refl f⟩
    | ok dissolved =>
      obtain ⟨hg, hpersists, -⟩ := hr dissolved rfl
      refine Follows.bind (P := fun _ c' d' => c'.Alike d' ∧
        c'.functions.get? method = some dissolved.func) (.modify ⟨hcd1.store hg hg rfl, ?_⟩) ?_
      · simp [Context.store, Assoc.get?_insert]
      · rintro _ c2 d2 ⟨hcd2, hstored⟩
        refine (Quiet.forM Quiet.record _ hcd2).bind ?_
        rintro _ c3 d3 ⟨_, hcd3, hcc3⟩
        exact .pure ⟨hcd3, Bool.noConfusion, _, by rw [← hcc3.get?, hstored], hpersists⟩

lemma dissolveAllocations_faithful (method : MethodRef) :
    Faithful Context.Alike (dissolveAllocations method) := by
  intro c d hcd
  refine .get_bind ?_
  rw [← hcd.get? method]
  cases hf : c.functions.get? method with
  | none => exact .pure ⟨hcd, fun _ => hcd.left.alike⟩
  | some f =>
    have hexact := (hcd.left.get? hf).exact
    -- behind some trials the sites that are left stand as they did, or were removed
    have hloop := Follows.mapM (f := trySite method) (g := trySite method)
      (AllocationSite.collect f) (I := fun _ done c' d' => Tried method f c (done.any id) c' d')
      (fun site hsite _ done c' d' h => ?_) ⟨hcd, fun _ => hcd.left.alike, f, hf, .refl f⟩
    · exact hloop.bind fun dissolved c' d' h => .pure ⟨h.alike, h.same⟩
    · obtain ⟨g, hg, hpersists⟩ := h.persists
      obtain ⟨hs, hlt⟩ := standsIn_of_collect hexact hsite
      refine (trySite_follows h.alike hg (hs.persists hlt hpersists)).mono fun changed c'' d'' h' => ?_
      obtain ⟨k, hk, hpersists'⟩ := h'.persists
      refine ⟨h'.alike, fun hsame => ?_, k, hk, hpersists.trans hpersists'⟩
      simp only [any_append, any_cons, any_nil, Bool.or_eq_false_iff] at hsame
      exact (h.same hsame.1).trans (h'.same hsame.2.1)

end Dissolve.Optimize
