import Mathlib
import Dissolve.Graph.Traversal

/-!
# Proofs.Graph.Walk — what a depth-first walk finds

A walk that has as much fuel as there are unmarked nodes marks everything that can be reached over
unmarked nodes, and lists it so that every node stands behind a predecessor of it.
`visit_spec` says so of a piece of a walk, and `mem_walkFrom_iff` reads it as a statement about paths.
-/

namespace Dissolve.Graph

open List

variable {g : Graph} {a b n start fuel c s : Nat} {avoid : Nat → Bool} {nodes new : List Nat}

/-! ## Marks -/

namespace Walk

lemma isMarked_enter (w : Walk) (n m : Nat) : (w.enter n).isMarked m ↔ w.isMarked m ∨ m = n := by
  simp only [isMarked, enter, Array.getElem?_setIfInBounds]
  by_cases hnm : n = m
  · subst hnm
    by_cases hlt : n < w.marked.size
    · simp [hlt]
    · simp [hlt]
  · have hmn : m ≠ n := fun h => hnm h.symm
    simp [hnm, hmn]

@[simp] lemma isMarked_leave (w : Walk) (n m : Nat) : (w.leave n).isMarked m = w.isMarked m := rfl

def unmarked (w : Walk) : Finset Nat :=
  (Finset.range w.marked.size).filter fun n => w.isMarked n = false

lemma mem_unmarked (w : Walk) (n : Nat) : n ∈ w.unmarked ↔ w.isMarked n = false := by
  simp only [unmarked, Finset.mem_filter, Finset.mem_range, and_iff_right_iff_imp]
  intro h
  by_contra hlt
  simp [isMarked, Array.getElem?_eq_none (Nat.le_of_not_lt hlt)] at h

end Walk

/-! ## Pieces of a walk -/

/-- A piece of a walk from `w` to `w'` that left the nodes `new`. -/
structure Explored (g : Graph) (w w' : Walk) (new : List Nat) : Prop where
  left_eq : w'.left = new ++ w.left
  marked_iff : ∀ n, w'.isMarked n = true ↔ w.isMarked n = true ∨ n ∈ new
  fresh : ∀ n ∈ new, w.isMarked n = false
  nodup : new.Nodup
  closed : ∀ n ∈ new, ∀ s ∈ g.succ n, w'.isMarked s = true
  nested : (∀ n ∈ new, n < g.size) → new.Pairwise fun s n => g.Edge n s → g.Reaches s n

/-- Every node of the list is a root or stands behind a predecessor. -/
def Led (g : Graph) (roots new : List Nat) : Prop :=
  ∀ pre m post, new = pre ++ m :: post → m ∈ roots ∨ ∃ p ∈ pre, m ∈ g.succ p

namespace Explored

variable {w w' w'' : Walk} {new' : List Nat}

lemma refl (g : Graph) (w : Walk) : Explored g w w [] :=
  ⟨by simp, by simp, by simp, by simp, by simp, by simp⟩

lemma trans (h : Explored g w w' new) (h' : Explored g w' w'' new') :
    Explored g w w'' (new' ++ new) := by
  refine ⟨?_, ?_, ?_, ?_, ?_, ?_⟩
  · rw [h'.left_eq, h.left_eq, append_assoc]
  · intro n
    rw [h'.marked_iff, h.marked_iff, mem_append, or_assoc, or_comm (a := n ∈ new)]
  · intro n hn
    rcases mem_append.1 hn with hn' | hn
    · have hfresh := h'.fresh n hn'
      by_contra hmarked
      have := (h.marked_iff n).2 (.inl (by simpa using hmarked))
      simp [this] at hfresh
    · exact h.fresh n hn
  · refine nodup_append.2 ⟨h'.nodup, h.nodup, ?_⟩
    intro a ha b hb hab
    subst hab
    have hfresh := h'.fresh a ha
    have hmarked := (h.marked_iff a).2 (.inr hb)
    simp [hmarked] at hfresh
  · intro n hn s hs
    rcases mem_append.1 hn with hn' | hn
    · exact h'.closed n hn' s hs
    · exact (h'.marked_iff s).2 (.inl (h.closed n hn s hs))
  · intro hlt
    refine pairwise_append.2 ⟨h'.nested fun n hn => hlt n (by simp [hn]),
      h.nested fun n hn => hlt n (by simp [hn]), ?_⟩
    -- the successors of what the first piece left were marked before the second began
    intro s hs n hn hedge
    have hfresh := h'.fresh s hs
    simp [h.closed n hn s hedge.2.2] at hfresh

lemma unmarked_subset (h : Explored g w w' new) : w'.unmarked ⊆ w.unmarked := by
  intro n hn
  rw [Walk.mem_unmarked] at hn ⊢
  by_contra hmarked
  have := (h.marked_iff n).2 (.inl (by simpa using hmarked))
  simp [this] at hn

end Explored

namespace Led

variable {roots roots' new' : List Nat}

lemma nil (g : Graph) (roots : List Nat) : Led g roots [] := by
  intro pre m post h
  simp at h

lemma mono (h : Led g roots new) (hsub : ∀ n ∈ roots, n ∈ roots') : Led g roots' new := by
  intro pre m post heq
  rcases h pre m post heq with hroot | hpred
  · exact .inl (hsub m hroot)
  · exact .inr hpred

lemma append (h : Led g roots new) (h' : Led g roots new') : Led g roots (new' ++ new) := by
  intro pre m post heq
  rcases append_eq_append_iff.1 heq with ⟨mid, hpre, hnew⟩ | ⟨mid, hnew', hmid⟩
  · rcases h mid m post hnew with hroot | ⟨p, hp, hm⟩
    · exact .inl hroot
    · exact .inr ⟨p, by simp [hpre, hp], hm⟩
  · cases mid with
    | nil =>
      rcases h [] m post (by simpa using hmid.symm) with hroot | ⟨p, hp, hm⟩
      · exact .inl hroot
      · simp at hp
    | cons x rest =>
      obtain rfl : m = x := by simpa using (cons.inj hmid).1
      exact h' pre m rest hnew'

lemma cons (h : Led g (g.succ n) new) : Led g [n] (n :: new) := by
  intro pre m post heq
  cases pre with
  | nil => exact .inl (by simpa using (cons.inj heq).1.symm)
  | cons x rest =>
    obtain ⟨hx, hnew⟩ := cons.inj heq
    subst hx
    rcases h rest m post hnew with hroot | ⟨p, hp, hm⟩
    · exact .inr ⟨n, by simp, hroot⟩
    · exact .inr ⟨p, by simp [hp], hm⟩

end Led

def PathAround (g : Graph) (avoid : Nat → Bool) (a : Nat) (nodes : List Nat) (b : Nat) : Prop :=
  g.Path a nodes b ∧ ∀ n ∈ nodes, avoid n = false

lemma Path.snoc (h : g.Path a nodes b) (hbc : g.Edge b c) : g.Path a (nodes ++ [c]) c := by
  induction h with
  | single ha => exact .cons hbc (.single hbc.2.1)
  | cons hab _ ih => exact .cons hab (ih hbc)

lemma path_of_led (hled : Led g [start] new) (hok : ∀ m ∈ new, m < g.size ∧ avoid m = false) :
    ∀ n ∈ new, ∃ nodes, g.PathAround avoid start nodes n := by
  -- strong induction on the place in the list: the predecessor stands further in front
  have hind : ∀ (k : Nat) pre m post, pre.length = k → new = pre ++ m :: post →
      ∃ nodes, g.PathAround avoid start nodes m := by
    intro k
    induction k using Nat.strong_induction_on with
    | _ k ih =>
      intro pre m post hk heq
      have hm : m ∈ new := by simp [heq]
      rcases hled pre m post heq with hroot | ⟨p, hp, hsucc⟩
      · rw [mem_singleton] at hroot
        subst hroot
        exact ⟨[m], .single (hok m hm).1, by simpa using (hok m hm).2⟩
      · obtain ⟨front, back, rfl⟩ := append_of_mem hp
        have hp' : p ∈ new := by simp [heq]
        obtain ⟨nodes, hpath, hav⟩ := ih front.length (by simp at hk; omega) front p
          (back ++ m :: post) rfl (by simp [heq])
        refine ⟨nodes ++ [m], hpath.snoc ⟨(hok p hp').1, (hok m hm).1, hsucc⟩, ?_⟩
        intro x hx
        rcases mem_append.1 hx with hx | hx
        · exact hav x hx
        · rw [mem_singleton.1 hx]
          exact (hok m hm).2
  intro n hn
  obtain ⟨pre, post, heq⟩ := append_of_mem hn
  exact hind pre.length pre n post rfl heq

def Visits (g : Graph) (w w' : Walk) (n : Nat) : Prop :=
  ∃ new, Explored g w w' new ∧ Led g [n] new ∧ w'.isMarked n = true ∧
    (w.isMarked n = false → new.head? = some n)

lemma foldl_visits {step : Walk → Nat → Walk}
    (hstep : ∀ w n, w.unmarked.card < fuel → Visits g w (step w n) n) (nodes : List Nat) :
    ∀ w : Walk, w.unmarked.card < fuel → ∃ new, Explored g w (nodes.foldl step w) new ∧
      Led g nodes new ∧ ∀ n ∈ nodes, (nodes.foldl step w).isMarked n := by
  induction nodes with
  | nil => exact fun w _ => ⟨[], Explored.refl g w, Led.nil g [], by simp⟩
  | cons n rest ih =>
    intro w hroom
    obtain ⟨first, hfirst, hled, hn, -⟩ := hstep w n hroom
    have hroom' : (step w n).unmarked.card < fuel :=
      lt_of_le_of_lt (Finset.card_le_card hfirst.unmarked_subset) hroom
    obtain ⟨later, hlater, hled', hrest⟩ := ih (step w n) hroom'
    refine ⟨later ++ first, hfirst.trans hlater, ?_, ?_⟩
    · exact (hled.mono (by simp)).append (hled'.mono (by simp +contextual))
    · intro m hm
      rcases mem_cons.1 hm with rfl | hm
      · exact (hlater.marked_iff m).2 (.inl hn)
      · exact hrest m hm

/-- With fuel for every unmarked node, a walk explores all that it can reach. -/
theorem visit_spec (g : Graph) :
    ∀ (fuel : Nat) (w : Walk) (n : Nat), w.unmarked.card < fuel → Visits g w (g.visit fuel w n) n := by
  intro fuel
  induction fuel with
  | zero => exact fun w n h => absurd h (Nat.not_lt_zero _)
  | succ fuel ih =>
    intro w n hroom
    by_cases hmarked : w.isMarked n = true
    · refine ⟨[], ?_, Led.nil g _, ?_, by simp [hmarked]⟩
      · simpa [visit, hmarked] using Explored.refl g w
      · simp [visit, hmarked]
    · have hn : w.isMarked n = false := by simpa using hmarked
      -- entering `n` uses up one unmarked node, so the smaller fuel is still enough
      have hsub : (w.enter n).unmarked ⊂ w.unmarked := by
        refine Finset.ssubset_iff_of_subset ?_ |>.2 ⟨n, (w.mem_unmarked n).2 hn, ?_⟩
        · intro m hm
          rw [Walk.mem_unmarked] at hm ⊢
          by_contra hc
          have := (w.isMarked_enter n m).2 (.inl (by simpa using hc))
          simp [this] at hm
        · rw [Walk.mem_unmarked]
          simp [(w.isMarked_enter n n).2 (.inr rfl)]
      have hroom' : (w.enter n).unmarked.card < fuel := by
        have := Finset.card_lt_card hsub
        omega
      obtain ⟨new, hnew, hled, hsucc⟩ := foldl_visits ih (g.succ n) (w.enter n) hroom'
      have hvisit : g.visit (fuel + 1) w n =
          ((g.succ n).foldl (fun w s => g.visit fuel w s) (w.enter n)).leave n := by
        simp [visit, hn]
      rw [hvisit]
      refine ⟨n :: new, ⟨?_, ?_, ?_, ?_, ?_, ?_⟩, hled.cons, ?_, by simp⟩
      · exact congrArg (n :: ·) hnew.left_eq
      · intro m
        rw [Walk.isMarked_leave, hnew.marked_iff, Walk.isMarked_enter, mem_cons, or_assoc]
      · intro m hm
        rcases mem_cons.1 hm with rfl | hm
        · exact hn
        · by_contra hc
          have hfresh := hnew.fresh m hm
          rw [(w.isMarked_enter n m).2 (.inl (by simpa using hc))] at hfresh
          simp at hfresh
      · refine nodup_cons.2 ⟨fun hm => ?_, hnew.nodup⟩
        have hfresh := hnew.fresh n hm
        simp [(w.isMarked_enter n n).2 (.inr rfl)] at hfresh
      · intro m hm s hs
        rcases mem_cons.1 hm with rfl | hm
        · exact hsucc s hs
        · exact hnew.closed m hm s hs
      · intro hlt
        refine pairwise_cons.2 ⟨fun m hm _ => ?_, hnew.nested fun m hm => hlt m (by simp [hm])⟩
        obtain ⟨nodes, hpath, -⟩ :=
          path_of_led hled.cons (fun k hk => ⟨hlt k hk, rfl⟩) m (by simp [hm])
        exact ⟨nodes, hpath⟩
      · simp [hnew.marked_iff, (w.isMarked_enter n n).2 (.inr rfl)]

/-! ## Walks from the start -/

lemma isMarked_startWalk (g : Graph) (avoid : Nat → Bool) (n : Nat) :
    (g.startWalk avoid).isMarked n ↔ g.size ≤ n ∨ avoid n := by
  simp only [Walk.isMarked, startWalk, Array.getElem?_ofFn]
  by_cases h : n < g.size
  · simp [h]
  · simp [h, Nat.le_of_not_lt h]

lemma walkFrom_visits (g : Graph) (avoid : Nat → Bool) (start : Nat) :
    Visits g (g.startWalk avoid) (g.walkFrom avoid start) start := by
  refine visit_spec g _ _ _ ?_
  calc (g.startWalk avoid).unmarked.card
      ≤ (Finset.range (g.startWalk avoid).marked.size).card := Finset.card_filter_le _ _
    _ = g.size := by simp [startWalk]
    _ < g.size + 1 := Nat.lt_succ_self _

lemma Path.lt_of_mem (h : g.Path a nodes b) (hn : n ∈ nodes) : n < g.size := by
  induction h with
  | single ha => simpa [mem_singleton.1 hn] using ha
  | cons hab _ ih =>
    rcases mem_cons.1 hn with rfl | hn
    · exact hab.1
    · exact ih hn

lemma Path.end_mem (h : g.Path a nodes b) : b ∈ nodes := by
  induction h with
  | single _ => simp
  | cons _ _ ih => simp [ih]

lemma mem_walkFrom_of_path
    (h : g.PathAround avoid start nodes n) : n ∈ (g.walkFrom avoid start).left := by
  obtain ⟨new, hnew, -, hstart, -⟩ := walkFrom_visits g avoid start
  -- a marked node that is in range and not avoided was marked by this walk
  have hfound : ∀ m, m < g.size → avoid m = false →
      (g.walkFrom avoid start).isMarked m → m ∈ new := by
    intro m hm ha hmark
    rcases (hnew.marked_iff m).1 hmark with hinit | hin
    · rcases (isMarked_startWalk g avoid m).1 hinit with hle | hav
      · omega
      · simp [ha] at hav
    · exact hin
  have hall : ∀ {a b : Nat} {nodes : List Nat}, g.Path a nodes b → (∀ m ∈ nodes, avoid m = false) →
      (g.walkFrom avoid start).isMarked a → b ∈ new := by
    intro a b nodes hpath
    induction hpath with
    | single ha => exact fun hav hmark => hfound _ ha (hav _ (by simp)) hmark
    | @cons a b c nodes hab hrest ih =>
      intro hav hmark
      have ha := hfound a hab.1 (hav a (by simp)) hmark
      exact ih (fun m hm => hav m (by simp [hm])) (hnew.closed a ha b hab.2.2)
  have := hall h.1 h.2 hstart
  simp [hnew.left_eq, this]

/-- A walk around some nodes finds exactly what paths around them reach. -/
theorem mem_walkFrom_iff (g : Graph) (avoid : Nat → Bool) (start n : Nat) :
    n ∈ (g.walkFrom avoid start).left ↔ ∃ nodes, g.PathAround avoid start nodes n := by
  constructor
  · intro hn
    obtain ⟨new, hnew, hled, -, -⟩ := walkFrom_visits g avoid start
    have hleft : (g.walkFrom avoid start).left = new := by simp [hnew.left_eq, startWalk]
    refine path_of_led hled ?_ n (hleft ▸ hn)
    intro m hm
    have hfresh := hnew.fresh m hm
    have hnot := mt (isMarked_startWalk g avoid m).2 (by simp [hfresh])
    simp only [not_or, not_le, Bool.not_eq_true] at hnot
    exact hnot
  · exact fun ⟨_, h⟩ => mem_walkFrom_of_path h

/-! ## Reverse postorder -/

lemma reversePostorder_nodup (g : Graph) (start : Nat) : (g.reversePostorder start).Nodup := by
  obtain ⟨new, hnew, -⟩ := walkFrom_visits g (fun _ => false) start
  simpa [reversePostorder, hnew.left_eq, startWalk] using hnew.nodup

lemma mem_reversePostorder_iff (g : Graph) (start n : Nat) :
    n ∈ g.reversePostorder start ↔ g.Reaches start n := by
  simp [reversePostorder, mem_walkFrom_iff, PathAround, Reaches]

lemma head?_reversePostorder (h : start < g.size) :
    (g.reversePostorder start).head? = some start := by
  obtain ⟨new, hnew, -, -, hhead⟩ := walkFrom_visits g (fun _ => false) start
  have hstart : (g.startWalk fun _ => false).isMarked start = false := by
    have := mt (isMarked_startWalk g (fun _ => false) start).1 (by simp [h])
    simpa using this
  simpa [reversePostorder, hnew.left_eq, startWalk] using hhead hstart

lemma reversePostorder_closed (hn : n ∈ g.reversePostorder start) (hs : s ∈ g.succ n)
    (hlt : s < g.size) : s ∈ g.reversePostorder start := by
  rw [mem_reversePostorder_iff] at hn ⊢
  obtain ⟨nodes, hpath⟩ := hn
  exact ⟨nodes ++ [s], hpath.snoc ⟨hpath.lt_of_mem hpath.end_mem, hlt, hs⟩⟩

lemma lt_size_of_mem_reversePostorder (hn : n ∈ g.reversePostorder start) : n < g.size := by
  obtain ⟨nodes, hpath⟩ := (mem_reversePostorder_iff g start n).1 hn
  exact hpath.lt_of_mem hpath.end_mem

lemma reversePostorder_led (g : Graph) (start : Nat) :
    Led g [start] (g.reversePostorder start) := by
  obtain ⟨new, hnew, hled, -⟩ := walkFrom_visits g (fun _ => false) start
  simpa [reversePostorder, hnew.left_eq, startWalk] using hled

end Dissolve.Graph
