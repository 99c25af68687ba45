import Galley.Proofs.RestoringEnds
/-!
# Work that sets pieces aside

Work on marked texts neither copies a mark nor invents one: the marks of its result and of the pieces it sets aside
come from those it was given and from those of its own pieces, and a piece holds marks of pieces before it only
(`Lays`).
-/

namespace Galley.Inline

namespace Stash

/-! ## Setting aside -/

/-- Pieces set aside one after the other, the first under the number `n`: they hold marks of earlier numbers, and
    none more often than it is in the multiset. -/
inductive Pieces (ok : Char → Bool) : Nat → Multiset Nat → List Text → Prop
  | nil {n : Nat} : Pieces ok n 0 []
  | cons {n : Nat} {w w' : Multiset Nat} {piece : Text} {pieces : List Text} (hpiece : Marked ok w piece)
      (hlt : ∀ k ∈ w, k < n) (hpieces : Pieces ok (n + 1) w' pieces) : Pieces ok n (w + w') (piece :: pieces)

namespace Pieces

variable {ok : Char → Bool} {n : Nat} {w w' : Multiset Nat} {ps ps' : List Text}

theorem append (h : Pieces ok n w ps) (h' : Pieces ok (n + ps.length) w' ps') : Pieces ok n (w + w') (ps ++ ps') := by
  induction h with
  | nil => rwa [Multiset.zero_add]
  | cons hpiece hlt _ ih =>
    rw [add_assoc]
    refine .cons hpiece hlt (ih ?_)
    rwa [Nat.add_assoc, Nat.add_comm 1]

theorem getElem? (h : Pieces ok n w ps) {i : Nat} {piece : Text} (hi : ps[i]? = some piece) :
    ∃ u ≤ w, Marked ok u piece ∧ ∀ k ∈ u, k < n + i := by
  induction h generalizing i with
  | nil => simp at hi
  | cons hpiece hlt _ ih =>
    cases i with
    | zero =>
      cases hi
      exact ⟨_, Multiset.le_add_right _ _, hpiece, hlt⟩
    | succ i =>
      obtain ⟨u, hle, hmarked, hk⟩ := ih hi
      exact ⟨u, hle.trans (Multiset.le_add_left _ _), hmarked, fun k hm => by have := hk k hm; omega⟩

theorem numbers_le (hopen : ok opening = false) (h : Pieces ok n w ps) : (ps.flatMap numbers : Multiset Nat) ≤ w := by
  induction h with
  | nil => exact Multiset.zero_le _
  | cons hpiece _ _ ih =>
    rw [List.flatMap_cons, ← Multiset.coe_add]
    exact add_le_add (hpiece.marks_eq hopen).2 ih

end Pieces

/-- Work with texts that share the marks `u` sets pieces aside, and `R` holds of its result and the marks left for it:
    all the marks that there are come from `u` and from the pieces set aside. -/
def Lays {α : Type} (ok : Char → Bool) (u : Multiset Nat) (work : StateM Stash α) (R : Multiset Nat → α → Prop) : Prop :=
  ∀ p : Stash, (∀ k ∈ u, k < p.length) → ∃ (a : α) (new : List Text) (v w : Multiset Nat),
    work.run p = (a, p ++ new) ∧ R v a ∧ Pieces ok p.length w new ∧ v + w ≤ u + (List.range' p.length new.length : List Nat)

namespace Lays

variable {α β : Type} {ok ok' : Char → Bool} {u u' x : Multiset Nat} {work : StateM Stash α} {R : Multiset Nat → α → Prop}
  {S : Multiset Nat → β → Prop}

theorem mono (h : Lays ok u work R) (hle : u ≤ u') : Lays ok u' work R := by
  intro p hp
  obtain ⟨a, new, v, w, hrun, ha, hnew, hsum⟩ := h p fun k hk => hp k (Multiset.mem_of_le hle hk)
  exact ⟨a, new, v, w, hrun, ha, hnew, hsum.trans (add_le_add_left hle _)⟩

theorem pure {a : α} (h : R u a) : Lays ok u (pure a) R :=
  fun p _ => ⟨a, [], u, 0, by simp [StateT.run_pure]; rfl, h, .nil, by simp⟩

/-- Work on a part of what there is, while the marks `x` are kept for what follows. -/
theorem bind_keeping {next : α → StateM Stash β} (h : Lays ok u work R) (hle : u + x ≤ u')
    (hnext : ∀ v a, R v a → Lays ok (v + x) (next a) S) : Lays ok u' (work >>= next) S := by
  intro p hp
  obtain ⟨a, new, v, w, hrun, ha, hnew, hsum⟩ :=
    h p fun k hk => hp k (Multiset.mem_of_le ((Multiset.le_add_right u x).trans hle) hk)
  have hlt : ∀ k ∈ v + x, k < (p ++ new).length := by
    intro k hk
    rw [List.length_append]
    rcases Multiset.mem_add.1 hk with hk | hk
    · have hmem := Multiset.mem_of_le ((Multiset.le_add_right v w).trans hsum) hk
      rcases Multiset.mem_add.1 hmem with hk | hk
      · have := hp k (Multiset.mem_of_le ((Multiset.le_add_right u x).trans hle) hk)
        omega
      · have := (List.mem_range'_1.1 (Multiset.mem_coe.1 hk)).2
        omega
    · have := hp k (Multiset.mem_of_le ((Multiset.le_add_left x u).trans hle) hk)
      omega
  obtain ⟨b, new', v', w', hrun', hb, hnew', hsum'⟩ := hnext v a ha _ hlt
  rw [List.length_append] at hnew' hsum'
  refine ⟨b, new ++ new', v', w + w', ?_, hb, hnew.append hnew', ?_⟩
  · rw [StateT.run_bind, hrun, ← List.append_assoc]
    exact hrun'
  · have hrange : (List.range' p.length (new ++ new').length : Multiset Nat) =
        (List.range' p.length new.length : Multiset Nat) + (List.range' (p.length + new.length) new'.length : Multiset Nat) := by
      rw [List.length_append, Multiset.coe_add, List.range'_append_1]
    rw [hrange]
    -- the marks kept aside for the rest pass by the first part of the work
    generalize (List.range' p.length new.length : Multiset Nat) = r at hsum
    generalize (List.range' (p.length + new.length) new'.length : Multiset Nat) = r' at hsum'
    calc v' + (w + w') = (v' + w') + w := by ac_rfl
      _ ≤ (v + x + r') + w := add_le_add_left hsum' w
      _ = (v + w) + (x + r') := by ac_rfl
      _ ≤ (u + r) + (x + r') := add_le_add_left hsum _
      _ = (u + x) + (r + r') := by ac_rfl
      _ ≤ u' + (r + r') := add_le_add_left hle _

theorem bind {next : α → StateM Stash β} (h : Lays ok u work R) (hnext : ∀ v a, R v a → Lays ok v (next a) S) :
    Lays ok u (work >>= next) S :=
  h.bind_keeping (x := 0) (by simp) fun v a ha => by simpa using hnext v a ha

theorem put {piece : Text} (h : Marked ok u piece) : Lays ok u (Stash.put piece) (Marked ok') := by
  intro p hp
  refine ⟨mark p.length, [piece], {p.length}, u + 0, rfl, ?_, .cons h hp .nil, ?_⟩
  · rw [← List.append_nil (mark p.length)]
    exact .mark (u := 0) (by simp) .nil
  · rw [add_zero, add_comm]
    exact le_rfl

/-- The pieces of a marked text, each put in its place with an effect. -/
theorem mapM {H : Multiset Nat → β → Text → Prop} {f : Piece β → StateM Stash Text} {ps : List (Piece β)}
    (h : Laid ok' H u ps) (hchar : ∀ c, f (.char c) = Pure.pure [c])
    (hhit : ∀ v a source, H v a source → Lays ok v (f (.hit a source)) (Marked ok')) :
    Lays ok u (ps.mapM f) fun v ts => Marked ok' v ts.flatten := by
  induction h with
  | nil => exact .pure .nil
  | char hc _ ih =>
    rw [List.mapM_cons, hchar, pure_bind]
    exact ih.bind fun v ts hts => .pure (.char hc hts)
  | @mark u u' k ps hk _ ih =>
    have hchars (t : Text) : (t.map Piece.char ++ ps).mapM f = ps.mapM f >>= fun ts => Pure.pure (t.map (fun c => [c]) ++ ts) := by
      induction t with
      | nil => simp
      | cons c t iht => simp only [List.map_cons, List.cons_append, List.mapM_cons, hchar, pure_bind, iht, bind_assoc]
    rw [hchars]
    -- the mark waits until the rest is done
    refine ih.bind_keeping (x := {k}) (by rwa [add_comm]) fun v ts hts => .pure ?_
    rw [List.flatten_append, Text.flatten_map_singleton]
    exact .mark (by rw [add_comm]; exact le_rfl) hts
  | hit ha hle _ ih =>
    rw [List.mapM_cons]
    refine (hhit _ _ _ ha).bind_keeping hle fun v t ht => ?_
    refine ih.bind_keeping (x := v) (by rw [add_comm]) fun v' ts hts => .pure ?_
    rw [List.flatten_cons, add_comm]
    exact ht.append hts

/-- Steps on marked texts one after the other. -/
theorem foldlM {l : List β} {f : Text → β → StateM Stash Text} (hf : ∀ y ∈ l, ∀ v s, Marked ok v s → Lays ok v (f s y) (Marked ok))
    {s : Text} (hs : Marked ok u s) : Lays ok u (l.foldlM f s) (Marked ok) := by
  induction l generalizing u s with
  | nil => exact .pure hs
  | cons y l ih =>
    rw [List.foldlM_cons]
    exact (hf y List.mem_cons_self u s hs).bind fun v t ht => ih (fun z hz => hf z (List.mem_cons_of_mem y hz)) ht

end Lays

end Stash

end Galley.Inline
