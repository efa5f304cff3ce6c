import Mathlib

/-!
# Proofs.Semantics.Observation — runs and what can be seen of them

A *system* is given by what it does next in each state (`Move`): it goes on silently, it asks its
environment a question and goes on with the answer, or it halts. Nothing is assumed about the answers,
so a statement about all observations of a system holds under every interpretation of its questions.

`Shows next s trace ending` says that some run from `s` asks the questions of `trace`, gets the
answers written next to them, and has then halted as `ending` says or not halted yet. Two states that
show the same cannot be told apart by runs of any length.

Main statement: states related by a simulation show the same (`Simulation.shows_iff`). Steps may be
matched by any number of silent steps; a rank excludes that infinitely many steps are matched by none.
-/

namespace Dissolve.Semantics

/-- What a system does next. -/
inductive Move (ε α ρ σ : Type)
  | silent (state : σ)
  | ask (question : ε) (resume : α → σ)
  | halt (ending : ρ)

section

variable {ε α ρ σ τ : Type} {next' : τ → Move ε α ρ τ} {rel : σ → τ → Prop} {bound : Nat}
  {move : Move ε α ρ σ}

/-- A run of a number of steps asks the questions of a trace. -/
inductive Observes (next : σ → Move ε α ρ σ) : Nat → σ → List (ε × α) → Option ρ → Prop
  | here (s : σ) : Observes next 0 s [] none
  | halt {s : σ} {r : ρ} (now : next s = .halt r) : Observes next 0 s [] (some r)
  | silent {n : Nat} {s s' : σ} {trace : List (ε × α)} {ending : Option ρ}
      (now : next s = .silent s') (later : Observes next n s' trace ending) :
      Observes next (n + 1) s trace ending
  | ask {n : Nat} {s : σ} {question : ε} {resume : α → σ} {trace : List (ε × α)}
      {ending : Option ρ} (now : next s = .ask question resume) (answer : α)
      (later : Observes next n (resume answer) trace ending) :
      Observes next (n + 1) s ((question, answer) :: trace) ending

/-- Some run asks the questions of a trace. -/
def Shows (next : σ → Move ε α ρ σ) (s : σ) (trace : List (ε × α)) (ending : Option ρ) : Prop :=
  ∃ n, Observes next n s trace ending

/-- A number of silent steps lead from one state to another. -/
inductive Glides (next : σ → Move ε α ρ σ) : Nat → σ → σ → Prop
  | refl (s : σ) : Glides next 0 s s
  | step {n : Nat} {s s' s'' : σ} (now : next s = .silent s') (later : Glides next n s' s'') :
      Glides next (n + 1) s s''

/-- Every step of one system is matched by silent steps and one of the same kind of another. -/
structure Simulation (next : σ → Move ε α ρ σ) (next' : τ → Move ε α ρ τ) (rel : σ → τ → Prop)
    (rank : σ → Nat) : Prop where
  halt : ∀ {s t r}, rel s t → next s = .halt r → ∃ n t', Glides next' n t t' ∧ next' t' = .halt r
  ask : ∀ {s t question resume}, rel s t → next s = .ask question resume →
    ∃ n t' resume', Glides next' n t t' ∧ next' t' = .ask question resume' ∧
      ∀ answer, rel (resume answer) (resume' answer)
  silent : ∀ {s t s'}, rel s t → next s = .silent s' →
    ∃ n t', Glides next' n t t' ∧ rel s' t' ∧ (n = 0 → rank s' < rank s)

/-- A state of another system meets a move: after silent steps it makes one of the same kind. -/
inductive Meets (next' : τ → Move ε α ρ τ) (rel : σ → τ → Prop) (rank : σ → Nat) (bound : Nat)
    (t : τ) : Move ε α ρ σ → Prop
  | halt {n : Nat} {t' : τ} {r : ρ} (glides : Glides next' n t t') (now : next' t' = .halt r) :
      Meets next' rel rank bound t (.halt r)
  | ask {n : Nat} {t' : τ} {question : ε} {resume : α → σ} {resume' : α → τ}
      (glides : Glides next' n t t') (now : next' t' = .ask question resume')
      (related : ∀ answer, rel (resume answer) (resume' answer)) :
      Meets next' rel rank bound t (.ask question resume)
  | silent {n : Nat} {t' : τ} {s' : σ} (glides : Glides next' n t t') (related : rel s' t')
      (down : n = 0 → rank s' < bound) : Meets next' rel rank bound t (.silent s')

/-- Two systems do the same next and go on in related states. -/
inductive Move.Matches (rel : σ → τ → Prop) : Move ε α ρ σ → Move ε α ρ τ → Prop
  | silent {s : σ} {t : τ} (related : rel s t) : Matches rel (.silent s) (.silent t)
  | ask {question : ε} {resume : α → σ} {resume' : α → τ}
      (related : ∀ answer, rel (resume answer) (resume' answer)) :
      Matches rel (.ask question resume) (.ask question resume')
  | halt (ending : ρ) : Matches rel (.halt ending) (.halt ending)

namespace Glides

variable {next : σ → Move ε α ρ σ} {n m : Nat} {s s' s'' : σ} {trace : List (ε × α)}
  {ending : Option ρ}

lemma trans (h : Glides next n s s') (h' : Glides next m s' s'') : Glides next (n + m) s s'' := by
  induction h with
  | refl => rwa [Nat.zero_add]
  | step now _ ih =>
    rw [Nat.add_right_comm]
    exact .step now (ih h')

lemma single (h : next s = .silent s') : Glides next 1 s s' := .step h (.refl _)

lemma observes (h : Glides next n s s') (h' : Observes next m s' trace ending) :
    Observes next (n + m) s trace ending := by
  induction h with
  | refl => rwa [Nat.zero_add]
  | step now _ ih =>
    rw [Nat.add_right_comm]
    exact .silent now (ih h')

lemma shows (h : Glides next n s s') (h' : Shows next s' trace ending) :
    Shows next s trace ending := by
  obtain ⟨m, hm⟩ := h'
  exact ⟨n + m, h.observes hm⟩

lemma meets {rank : σ → Nat} {t t' : τ} (h : Glides next' n t t')
    (h' : Meets next' rel rank bound t' move) : Meets next' rel rank bound t move := by
  cases h' with
  | halt glides now => exact .halt (h.trans glides) now
  | ask glides now related => exact .ask (h.trans glides) now related
  | silent glides related down => exact .silent (h.trans glides) related fun hn => down (by omega)

/-- An observation from the start of silent steps shows nothing, or it goes on behind them. -/
lemma observes_cases (h : Glides next n s s') (h' : Observes next m s trace ending) :
    trace = [] ∧ ending = none ∨ ∃ k, m = n + k ∧ Observes next k s' trace ending := by
  induction h generalizing m with
  | refl => exact .inr ⟨m, (Nat.zero_add m).symm, h'⟩
  | step now _ ih =>
    cases h' with
    | here => exact .inl ⟨rfl, rfl⟩
    | halt now' => cases now.symm.trans now'
    | ask now' => cases now.symm.trans now'
    | silent now' later =>
      rw [now] at now'
      obtain rfl := Move.silent.inj now'
      rcases ih later with hnone | ⟨k, rfl, hk⟩
      · exact .inl hnone
      · exact .inr ⟨k, by omega, hk⟩

end Glides

namespace Observes

variable {next : σ → Move ε α ρ σ} {n : Nat} {s : σ} {trace : List (ε × α)} {ending : Option ρ}

lemma halt_cases (h : Observes next n s trace ending) {r : ρ} (now : next s = .halt r) :
    trace = [] ∧ (ending = none ∨ ending = some r) := by
  cases h with
  | here => exact ⟨rfl, .inl rfl⟩
  | halt now' =>
    rw [now] at now'
    exact ⟨rfl, .inr (congrArg some (Move.halt.inj now').symm)⟩
  | silent now' | ask now' => cases now.symm.trans now'

lemma ask_cases (h : Observes next n s trace ending) {question : ε} {resume : α → σ}
    (now : next s = .ask question resume) :
    trace = [] ∧ ending = none ∨ ∃ m answer rest, n = m + 1 ∧ trace = (question, answer) :: rest ∧
      Observes next m (resume answer) rest ending := by
  cases h with
  | here => exact .inl ⟨rfl, rfl⟩
  | halt now' | silent now' => cases now.symm.trans now'
  | ask now' answer later =>
    rw [now] at now'
    obtain ⟨rfl, rfl⟩ := Move.ask.inj now'
    exact .inr ⟨_, answer, _, rfl, rfl, later⟩

end Observes

lemma Move.Matches.meets {rank : σ → Nat} {t : τ} (h : move.Matches rel (next' t)) :
    Meets next' rel rank bound t move := by
  generalize ht : next' t = move' at h
  cases h with
  | halt ending => exact .halt (.refl t) ht
  | ask related => exact .ask (.refl t) ht related
  | silent related => exact .silent (.single ht) related fun hn => absurd hn (by omega)

namespace Simulation

variable {next : σ → Move ε α ρ σ} {rank : σ → Nat} {s : σ} {t : τ} {trace : List (ε × α)}
  {ending : Option ρ} {n : Nat}

lemma shows_right (h : Simulation next next' rel rank) (hrel : rel s t)
    (hs : Observes next n s trace ending) : Shows next' t trace ending := by
  induction hs generalizing t with
  | here => exact ⟨0, .here t⟩
  | halt now =>
    obtain ⟨n, t', hglide, hhalt⟩ := h.halt hrel now
    exact hglide.shows ⟨0, .halt hhalt⟩
  | silent now _ ih =>
    obtain ⟨n, t', hglide, hrel', -⟩ := h.silent hrel now
    exact hglide.shows (ih hrel')
  | ask now answer _ ih =>
    obtain ⟨n, t', resume', hglide, hask, hrel'⟩ := h.ask hrel now
    obtain ⟨m, hm⟩ := ih (hrel' answer)
    exact hglide.shows ⟨m + 1, .ask hask answer hm⟩

/-- The steps that the right system has left and the rank of the left one go down together. -/
lemma shows_left (h : Simulation next next' rel rank) (hrel : rel s t)
    (ht : Observes next' n t trace ending) : Shows next s trace ending := by
  have here : ∀ s : σ, Shows next s [] none := fun s => ⟨0, .here s⟩
  induction n using Nat.strong_induction_on generalizing s t trace with
  | _ n ih =>
    induction hm : rank s using Nat.strong_induction_on generalizing s t trace with
    | _ m ihRank =>
      cases hnext : next s with
      | halt r =>
        obtain ⟨k, t', hglide, hhalt⟩ := h.halt hrel hnext
        rcases hglide.observes_cases ht with ⟨rfl, rfl⟩ | ⟨j, -, hj⟩
        · exact here s
        · obtain ⟨rfl, rfl | rfl⟩ := hj.halt_cases hhalt
          · exact here s
          · exact ⟨0, .halt hnext⟩
      | ask question resume =>
        obtain ⟨k, t', resume', hglide, hask, hrel'⟩ := h.ask hrel hnext
        rcases hglide.observes_cases ht with ⟨rfl, rfl⟩ | ⟨j, hlen, hj⟩
        · exact here s
        · rcases hj.ask_cases hask with ⟨rfl, rfl⟩ | ⟨i, answer, rest, hi, rfl, hlater⟩
          · exact here s
          · obtain ⟨l, hl⟩ := ih i (by omega) (hrel' answer) hlater
            exact ⟨l + 1, .ask hnext answer hl⟩
      | silent s' =>
        obtain ⟨k, t', hglide, hrel', hrank⟩ := h.silent hrel hnext
        rcases hglide.observes_cases ht with ⟨rfl, rfl⟩ | ⟨j, hlen, hj⟩
        · exact here s
        · obtain ⟨l, hl⟩ : Shows next s' trace ending := by
            rcases Nat.eq_zero_or_pos k with hk | hk
            · obtain rfl : j = n := by omega
              exact ihRank (rank s') (hm ▸ hrank hk) hrel' hj rfl
            · exact ih j (by omega) hrel' hj
          exact ⟨l + 1, .silent hnext hl⟩

lemma of_meets (h : ∀ s t, rel s t → Meets next' rel rank (rank s) t (next s)) :
    Simulation next next' rel rank := by
  refine ⟨?_, ?_, ?_⟩
  · intro s t r hrel hnext
    have hmeets := h s t hrel
    rw [hnext] at hmeets
    cases hmeets with
    | halt glides now => exact ⟨_, _, glides, now⟩
  · intro s t question resume hrel hnext
    have hmeets := h s t hrel
    rw [hnext] at hmeets
    cases hmeets with
    | ask glides now related => exact ⟨_, _, _, glides, now, related⟩
  · intro s t s' hrel hnext
    have hmeets := h s t hrel
    rw [hnext] at hmeets
    cases hmeets with
    | silent glides related down => exact ⟨_, _, glides, related, down⟩

lemma of_matches (h : ∀ s t, rel s t → (next s).Matches rel (next' t)) :
    Simulation next next' rel fun _ => 0 :=
  of_meets fun s t hrel => (h s t hrel).meets

theorem shows_iff (h : Simulation next next' rel rank) (hrel : rel s t) :
    Shows next s trace ending ↔ Shows next' t trace ending := by
  constructor
  · rintro ⟨n, hs⟩
    exact h.shows_right hrel hs
  · rintro ⟨n, ht⟩
    exact h.shows_left hrel ht

end Simulation

end

end Dissolve.Semantics
