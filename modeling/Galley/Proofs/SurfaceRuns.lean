import Galley.Proofs.Shrinking
/-!
# Passes over the trees of a surface

Whatever is done to a surface, a tree changes in a pass only that is executed while the tree is shown and
with a ticket of its generation (`passes_keep_to_their_tree`). Such a pass sets styles of what may be shrunk
and nothing else; where widths depend on text only, a second one with the same ticket changes nothing.
-/

namespace Galley

open Html (Node)

namespace Surface

/-! ## What may be done to a surface -/

inductive Event where
  | attach (tree : List Node)
  | layOut (ticket : Ticket)
  | schedule (ticket : Ticket)
  | cancel (handle : Nat)
  | turn

/-- A surface and the meters that count what its passes shrink. -/
structure Showing where
  surface : Surface := {}
  meters : Meters := {}

/-- A pass that was executed. -/
structure Pass where
  ticket : Ticket
  before : Showing
  after : Showing
  summary : LayoutSummary

section Events

variable (settings : Settings) (w : Widths)

def Showing.pass (s : Showing) (t : Ticket) : Pass :=
  let (surface, summary, shrinks) := s.surface.layOut settings w t
  { ticket := t, before := s, after := ⟨surface, s.meters.countShrinks shrinks⟩, summary }

/-- The passes that are executed for some tickets, each after the one before. -/
def Showing.passes (s : Showing) : List Ticket → List Pass
  | [] => []
  | t :: ts => s.pass settings w t :: (s.pass settings w t).after.passes ts

/-- What the last pass for some tickets leaves. -/
def Showing.afterPasses (s : Showing) (ts : List Ticket) : Showing :=
  ts.foldl (fun s t => (s.pass settings w t).after) s

/-- The tickets of the passes that an event executes. -/
def Event.tickets (s : Surface) : Event → List Ticket
  | .layOut t => [t]
  | .turn => s.deferred.filterMap id
  | _ => []

def Showing.apply (s : Showing) : Event → Showing
  | .attach tree => { s with surface := (s.surface.attach tree).1 }
  | .layOut t =>
    let (surface, _, shrinks) := s.surface.layOut settings w t
    ⟨surface, s.meters.countShrinks shrinks⟩
  | .schedule t => { s with surface := s.surface.schedule t }
  | .cancel handle => { s with surface := s.surface.cancel handle }
  | .turn =>
    let (surface, shrinks) := s.surface.turn settings w
    ⟨surface, s.meters.countShrinks shrinks⟩

/-- What a row of events leaves. -/
def Showing.run (s : Showing) (es : List Event) : Showing := es.foldl (Showing.apply settings w) s

end Events

variable {settings : Settings} {w : Widths} {s : Showing} {t : Ticket} {k : Nat}

/-! ## One pass -/

theorem isLive_iff {s : Surface} : s.isLive t = true ↔ t.generation = s.generation ∧ s.trees ≠ [] := by
  simp [isLive]

theorem pass_stale (h : s.surface.isLive t = false) :
    (s.pass settings w t).after = s ∧ (s.pass settings w t).summary = { ticket := t, stale := true } := by
  unfold Showing.pass layOut
  rw [if_neg (by simp [h])]
  exact ⟨rfl, rfl⟩

/-- A pass with a current ticket puts the restyled tree in the place of the tree that is shown. -/
theorem pass_live (h : s.surface.isLive t = true) :
    ∃ tree, s.surface.tree? = some tree ∧ (s.pass settings w t).summary.stale = false ∧
      (s.pass settings w t).after.surface =
        { s.surface with trees := s.surface.trees.dropLast ++ [(Shrink.shrinkAll settings w false tree).1] } ∧
      (s.pass settings w t).after.meters = s.meters.countShrinks (Shrink.shrinkAll settings w false tree).2 := by
  obtain ⟨-, hne⟩ := isLive_iff.1 h
  refine ⟨s.surface.trees.getLast hne, List.getLast?_eq_some_getLast hne, ?_⟩
  unfold Showing.pass layOut
  rw [if_pos h, tree?, List.getLast?_eq_some_getLast hne]
  exact ⟨rfl, rfl, rfl⟩

theorem pass_generation : (s.pass settings w t).after.surface.generation = s.surface.generation := by
  cases h : s.surface.isLive t with
  | false => rw [(pass_stale h).1]
  | true =>
    obtain ⟨tree, -, -, hafter, -⟩ := @pass_live settings w _ _ h
    have hne := List.length_pos_iff.2 (isLive_iff.1 h).2
    rw [hafter]
    simp only [generation, List.length_append, List.length_dropLast, List.length_singleton]
    omega

/-- A tree that a pass changes is the one that is shown, and the ticket is of its generation. -/
theorem pass_tree_ne (h : (s.pass settings w t).after.surface.trees[k]? ≠ s.surface.trees[k]?) :
    s.surface.isLive t = true ∧ s.surface.generation = k + 1 := by
  cases hlive : s.surface.isLive t with
  | false => exact absurd (by rw [(pass_stale hlive).1]) h
  | true =>
    refine ⟨rfl, ?_⟩
    obtain ⟨tree, -, -, hafter, -⟩ := @pass_live settings w _ _ hlive
    have hne := List.length_pos_iff.2 (isLive_iff.1 hlive).2
    rw [hafter] at h
    by_contra hk
    refine h ?_
    rcases Nat.lt_or_ge k (s.surface.trees.length - 1) with hlt | hge
    · rw [List.getElem?_append_left (by simpa using hlt), List.getElem?_dropLast, if_pos hlt]
    · have hout : s.surface.trees.length ≤ k := by
        simp only [generation] at hk
        omega
      rw [List.getElem?_eq_none hout, List.getElem?_eq_none (by simp; omega)]

/-! ## The passes of an event -/

theorem passes_generation (ts : List Ticket) : (s.afterPasses settings w ts).surface.generation = s.surface.generation := by
  induction ts generalizing s with
  | nil => rfl
  | cons t ts ih => exact ih.trans pass_generation

/-- Every pass of a row is one that its ticket gives at its place, in the generation in which the row began. -/
theorem of_mem_passes {ts : List Ticket} {p : Pass} (h : p ∈ s.passes settings w ts) :
    p = p.before.pass settings w p.ticket ∧ p.before.surface.generation = s.surface.generation := by
  induction ts generalizing s with
  | nil => cases h
  | cons t ts ih =>
    rcases List.mem_cons.1 h with rfl | h
    · exact ⟨rfl, rfl⟩
    · obtain ⟨hp, hgeneration⟩ := ih h
      exact ⟨hp, hgeneration.trans pass_generation⟩

/-- A tree that a row of passes changes was changed by one of them. -/
theorem exists_pass {ts : List Ticket} (h : (s.afterPasses settings w ts).surface.trees[k]? ≠ s.surface.trees[k]?) :
    ∃ p ∈ s.passes settings w ts, p.after.surface.trees[k]? ≠ p.before.surface.trees[k]? := by
  induction ts generalizing s with
  | nil => exact absurd rfl h
  | cons t ts ih =>
    by_cases hfirst : (s.pass settings w t).after.surface.trees[k]? = s.surface.trees[k]?
    · rw [← hfirst] at h
      obtain ⟨p, hp, hne⟩ := ih h
      exact ⟨p, List.mem_cons_of_mem _ hp, hne⟩
    · exact ⟨_, List.mem_cons_self, hfirst⟩

theorem foldl_turn (ts : List (Option Ticket)) (r : Surface × List (Text × Float)) (meters : Meters) :
    let r' := ts.foldl (fun r t =>
      match t with
      | none => r
      | some t => ((layOut settings w r.1 t).1, r.2 ++ (layOut settings w r.1 t).2.2)) r
    Showing.mk r'.1 (meters.countShrinks r'.2) =
      (Showing.mk r.1 (meters.countShrinks r.2)).afterPasses settings w (ts.filterMap id) := by
  induction ts generalizing r with
  | nil => rfl
  | cons t ts ih =>
    cases t with
    | none => exact ih r
    | some t =>
      refine (ih _).trans (congrArg (fun s => Showing.afterPasses settings w s (ts.filterMap id)) ?_)
      unfold Showing.pass Meters.countShrinks
      rw [List.foldl_append]

/-- A turn executes the deferred passes in order and leaves none. -/
theorem apply_turn (s : Showing) :
    let last := s.afterPasses settings w (s.surface.deferred.filterMap id)
    s.apply settings w .turn =
      { last with surface := { last.surface with deferred := last.surface.deferred.map fun _ => none } } := by
  have hlast := @foldl_turn settings w s.surface.deferred (s.surface, []) s.meters
  dsimp only at hlast ⊢
  rw [show Showing.mk s.surface (s.meters.countShrinks []) = s from rfl] at hlast
  rw [← hlast]
  rfl

/-- Trees and meters are left by an event as its passes leave them, unless it attaches a tree. -/
theorem apply_eq_afterPasses {e : Event} (h : ∀ tree, e ≠ .attach tree) :
    (s.apply settings w e).surface.trees = (s.afterPasses settings w (e.tickets s.surface)).surface.trees ∧
      (s.apply settings w e).meters = (s.afterPasses settings w (e.tickets s.surface)).meters := by
  cases e with
  | attach tree => exact absurd rfl (h tree)
  | layOut t => exact ⟨rfl, rfl⟩
  | schedule t => exact ⟨rfl, rfl⟩
  | cancel handle => exact ⟨rfl, rfl⟩
  | turn =>
    rw [apply_turn]
    exact ⟨rfl, rfl⟩

/-! ## Events -/

theorem exists_pass_of_apply {e : Event} (hk : k < s.surface.generation)
    (h : (s.apply settings w e).surface.trees[k]? ≠ s.surface.trees[k]?) :
    ∃ p ∈ s.passes settings w (e.tickets s.surface), p.ticket.generation = k + 1 ∧ p.before.surface.generation = k + 1 ∧
      p.after.surface.trees[k]? ≠ p.before.surface.trees[k]? := by
  by_cases hattach : ∃ tree, e = .attach tree
  · obtain ⟨tree, rfl⟩ := hattach
    exact absurd (List.getElem?_append_left hk) h
  · rw [(apply_eq_afterPasses fun tree he => hattach ⟨tree, he⟩).1] at h
    obtain ⟨p, hp, hne⟩ := exists_pass h
    obtain ⟨hpass, -⟩ := of_mem_passes hp
    have hne' := hne
    rw [hpass] at hne'
    obtain ⟨hlive, hgeneration⟩ := pass_tree_ne hne'
    exact ⟨p, hp, (isLive_iff.1 hlive).1.trans hgeneration, hgeneration, hne⟩

theorem generation_le_apply (e : Event) : s.surface.generation ≤ (s.apply settings w e).surface.generation := by
  by_cases hattach : ∃ tree, e = .attach tree
  · obtain ⟨tree, rfl⟩ := hattach
    simp [Showing.apply, attach, generation]
  · rw [generation, generation, (apply_eq_afterPasses fun tree he => hattach ⟨tree, he⟩).1]
    exact Nat.le_of_eq (passes_generation _).symm

/-- A tree behind which another was attached stays as it is. -/
theorem apply_older (e : Event) (hk : k + 1 < s.surface.generation) :
    (s.apply settings w e).surface.trees[k]? = s.surface.trees[k]? := by
  by_contra h
  obtain ⟨p, hp, -, hgeneration, -⟩ := exists_pass_of_apply (Nat.lt_of_succ_lt hk) h
  have := (of_mem_passes hp).2
  omega

theorem run_older (es : List Event) (hk : k + 1 < s.surface.generation) :
    (s.run settings w es).surface.trees[k]? = s.surface.trees[k]? := by
  induction es generalizing s with
  | nil => rfl
  | cons e es ih => exact (ih (Nat.lt_of_lt_of_le hk (generation_le_apply e))).trans (apply_older e hk)

/-! ## Trees that were laid out -/

section Settled

variable {m : Measurer}

/-- The tree is there, and laying it out gives it back. -/
def Showing.Settled (settings : Settings) (m : Measurer) (k : Nat) (s : Showing) : Prop :=
  ∃ tree, s.surface.trees[k]? = some tree ∧ (Shrink.shrinkAll settings m false tree).1 = tree

theorem settled_pass (h : s.surface.isLive t = true) (hk : s.surface.generation = k + 1) :
    (s.pass settings m t).after.Settled settings m k := by
  obtain ⟨tree, -, -, hafter, -⟩ := @pass_live settings m _ _ h
  refine ⟨(Shrink.shrinkAll settings m false tree).1, ?_, by rw [Shrink.shrinkAll_shrinkAll]⟩
  have hlength : s.surface.trees.dropLast.length = k := by
    rw [List.length_dropLast, ← generation, hk, Nat.add_sub_cancel]
  rw [hafter]
  exact hlength ▸ List.getElem?_concat_length

namespace Showing.Settled

theorem pass (h : s.Settled settings m k) (t : Ticket) :
    (s.pass settings m t).after.surface.trees[k]? = s.surface.trees[k]? := by
  by_contra hne
  obtain ⟨hlive, hgeneration⟩ := pass_tree_ne hne
  obtain ⟨tree, htree, -, hafter, -⟩ := @pass_live settings m _ _ hlive
  obtain ⟨tree', htree', hfixed⟩ := h
  have hlast : s.surface.trees[k]? = some tree := by
    rw [← htree, tree?, List.getLast?_eq_getElem?, ← generation, hgeneration, Nat.add_sub_cancel]
  obtain rfl : tree = tree' := Option.some.inj (hlast.symm.trans htree')
  have hsame : s.surface.trees.dropLast ++ [tree] = s.surface.trees :=
    List.dropLast_append_getLast? _ (Option.mem_def.2 htree)
  rw [hafter, hfixed, hsame] at hne
  exact hne rfl

theorem of_eq {s' : Showing} (h : s.Settled settings m k) (heq : s'.surface.trees[k]? = s.surface.trees[k]?) :
    s'.Settled settings m k := by
  obtain ⟨tree, htree, hfixed⟩ := h
  exact ⟨tree, heq.trans htree, hfixed⟩

theorem passes (h : s.Settled settings m k) (ts : List Ticket) :
    (s.afterPasses settings m ts).surface.trees[k]? = s.surface.trees[k]? := by
  induction ts generalizing s with
  | nil => rfl
  | cons t ts ih => exact (ih (h.of_eq (h.pass t))).trans (h.pass t)

theorem apply (h : s.Settled settings m k) (e : Event) :
    (s.apply settings m e).surface.trees[k]? = s.surface.trees[k]? := by
  by_cases hattach : ∃ tree, e = .attach tree
  · obtain ⟨tree, rfl⟩ := hattach
    obtain ⟨tree', htree', -⟩ := h
    exact List.getElem?_append_left (List.getElem?_eq_some_iff.1 htree').1
  · rw [(apply_eq_afterPasses fun tree he => hattach ⟨tree, he⟩).1]
    exact h.passes _

/-- Whatever is done later, a tree that was laid out stays as it is. -/
theorem run (h : s.Settled settings m k) (es : List Event) :
    (s.run settings m es).surface.trees[k]? = s.surface.trees[k]? := by
  induction es generalizing s with
  | nil => rfl
  | cons e es ih => exact (ih (h.of_eq (h.apply e))).trans (h.apply e)

end Showing.Settled

end Settled

/-! ## What passes do -/

/-- What a pass may do: nothing if its ticket is stale, else set styles in the tree that is shown; where widths
    depend on text only, that tree never changes again, neither in a pass with the same ticket nor later. -/
structure Pass.IsFaithful (settings : Settings) (w : Widths) (p : Pass) : Prop where
  stale : p.before.surface.isLive p.ticket = false →
    p.after = p.before ∧ p.summary = { ticket := p.ticket, adjusted := 0, stale := true }
  live : p.before.surface.isLive p.ticket = true → p.summary.stale = false ∧
    ∃ tree tree', p.before.surface.tree? = some tree ∧
      p.after.surface.trees = p.before.surface.trees.dropLast ++ [tree'] ∧ Shrink.RestyledAll false tree tree'
  again : p.before.surface.isLive p.ticket = true → ∀ m : Measurer, w = m → ∀ later k, p.before.surface.generation = k + 1 →
    (p.after.run settings w later).surface.trees[k]? = p.after.surface.trees[k]?

theorem isFaithful_pass (s : Showing) (t : Ticket) : (s.pass settings w t).IsFaithful settings w where
  stale h := pass_stale h
  live h := by
    obtain ⟨tree, htree, hsummary, hafter, -⟩ := @pass_live settings w _ _ h
    exact ⟨hsummary, tree, _, htree, congrArg Surface.trees hafter, Shrink.restyledAll_shrinkAll tree false⟩
  again h m hm later k hk := by
    subst hm
    exact (settled_pass h hk).run later

/-- Passes over a surface to which anything was done keep to the tree that is shown. Trees and meters change in
    passes only, beside trees being attached; a tree changes in one only that is executed while it is shown, with
    a ticket of its generation; and once another tree is attached it never changes again. -/
theorem passes_keep_to_their_tree (settings : Settings) (w : Widths) (events later : List Event) (e : Event) :
    let s := ({} : Showing).run settings w events
    ((∀ tree, e ≠ .attach tree) →
      (s.apply settings w e).surface.trees = (s.afterPasses settings w (e.tickets s.surface)).surface.trees ∧
        (s.apply settings w e).meters = (s.afterPasses settings w (e.tickets s.surface)).meters) ∧
    (∀ k < s.surface.generation, (s.apply settings w e).surface.trees[k]? ≠ s.surface.trees[k]? →
      ∃ p ∈ s.passes settings w (e.tickets s.surface), p.ticket.generation = k + 1 ∧ p.before.surface.generation = k + 1 ∧
        p.after.surface.trees[k]? ≠ p.before.surface.trees[k]?) ∧
    (∀ k, k + 1 < s.surface.generation → (s.run settings w later).surface.trees[k]? = s.surface.trees[k]?) ∧
    ∀ p ∈ s.passes settings w (e.tickets s.surface), p.IsFaithful settings w := by
  intro s
  refine ⟨apply_eq_afterPasses, fun k hk => exists_pass_of_apply hk, fun k hk => run_older later hk, fun p hp => ?_⟩
  rw [(of_mem_passes hp).1]
  exact isFaithful_pass _ _

/-- A wide formula: the deferred pass for the tree before it does nothing, its own one shrinks it. -/
example :
    let wide : List Node := [.element "div" [("class", "math-display")] [.text "abcd"]]
    let m : Measurer := ⟨10, 8⟩
    let s := ({} : Showing).run {} m [.attach wide, .schedule ⟨1⟩, .attach wide, .schedule ⟨2⟩]
    (s.passes {} m (Event.turn.tickets s.surface)).map (fun p => (p.ticket.generation, p.summary.adjusted, p.summary.stale)) =
        [(1, 0, true), (2, 1, false)] ∧
      (s.apply {} m .turn).surface.trees.map (fun tree => tree.map (·.attribute? "style")) =
        [[none], [some "transform: scale(0.550); transform-origin: left center; width: 181.8%; overflow-x: hidden;".toList]] := by
  decide +kernel

end Surface

end Galley
