import Galley.Proofs.Finding
import Galley.Proofs.Markers
/-!
# The marker that stands first

Of several names the one that begins first is the name of the first begin marker of any of them
(`Environment.firstName?_eq`), since at one place at most one name is read.
-/

namespace Galley

namespace Marker

open Text (find? Found)

variable {names : List Text}

/-- Of names without braces at most one is read at a place. -/
theorem begins_of_beginsAny (hnames : ∀ n ∈ names, '}' ∉ n) {b : Option Char} {s n rest : Text}
    (h : beginsAny names b s = some (n, rest)) :
    begins n b s = some ((), rest) ∧ ∀ m ∈ names, m ≠ n → begins m b s = none := by
  obtain ⟨hn, gap, hgap, rfl⟩ := beginsAny_eq_some h
  refine ⟨?_, fun m hm hne => ?_⟩
  · rw [begins, after?_source hgap, Option.map_some]
  · rw [begins, after?_source_of_ne hgap (hnames m hm) (hnames n hn) (Ne.symm hne), Option.map_none]

theorem begins_of_beginsAny_eq_none {b : Option Char} {s m : Text} (h : beginsAny names b s = none) (hm : m ∈ names) :
    begins m b s = none := by
  rw [begins, Option.map_eq_none_iff.1 (List.findSome?_eq_none_iff.1 h m hm), Option.map_none]

theorem misses_begins {s m : Text} (h : Text.Misses (beginsAny names) s) (hm : m ∈ names) : Text.Misses (begins m) s :=
  fun b t ht => begins_of_beginsAny_eq_none (h b t ht) hm

/-- The first marker of any name is the first one of its own name, and the others begin behind it. -/
theorem find?_beginsAny (hnames : ∀ n ∈ names, '}' ∉ n) {s : Text} {f : Found Text} (h : find? (beginsAny names) s = some f) :
    find? (begins f.value) s = some ⟨f.before, (), f.source, f.after⟩ ∧ f.value ∈ names ∧
      ∀ m ∈ names, m ≠ f.value → ∀ q ∈ Environment.firstBegin? m s, f.before.length < q := by
  have main (s : Text) (b : Option Char) (f : Found Text) (h : Text.findFrom (beginsAny names) b s = some f) :
      Text.findFrom (begins f.value) b s = some ⟨f.before, (), f.source, f.after⟩ ∧ f.value ∈ names ∧
        ∀ m ∈ names, m ≠ f.value → ∀ g ∈ Text.findFrom (begins m) b s, f.before.length < g.before.length := by
    induction s generalizing b f with
    | nil => cases h
    | cons c s ih =>
      simp only [Text.findFrom] at h ⊢
      cases hr : beginsAny names b (c :: s) with
      | some r =>
        obtain ⟨n, rest⟩ := r
        rw [hr] at h
        obtain rfl := Option.some.inj h
        obtain ⟨hn, hothers⟩ := begins_of_beginsAny hnames hr
        refine ⟨by simp only [hn], (beginsAny_eq_some hr).1, fun m hm hne g hg => ?_⟩
        simp only [hothers m hm hne] at hg
        obtain ⟨g', -, rfl⟩ := Option.map_eq_some_iff.1 hg
        exact Nat.succ_pos _
      | none =>
        rw [hr] at h
        obtain ⟨f', hf', rfl⟩ := Option.map_eq_some_iff.1 h
        obtain ⟨hfind, hmem, hothers⟩ := ih _ _ hf'
        have hnone (m : Text) (hm : m ∈ names) := begins_of_beginsAny_eq_none hr hm
        refine ⟨by simp only [hnone _ hmem, hfind, Option.map_some], hmem, fun m hm hne g hg => ?_⟩
        simp only [hnone m hm] at hg
        obtain ⟨g', hg', rfl⟩ := Option.map_eq_some_iff.1 hg
        exact Nat.succ_lt_succ (hothers m hm hne g' hg')
  obtain ⟨hfind, hmem, hothers⟩ := main s none f h
  refine ⟨hfind, hmem, fun m hm hne q hq => ?_⟩
  obtain ⟨g, hg, rfl⟩ := Option.map_eq_some_iff.1 hq
  exact hothers m hm hne g hg

end Marker

namespace Environment

variable {names : List Text}

/-- One step of the search for the name that begins first. -/
def earlier (s : Text) (best : Option (Nat × Text)) (name : Text) : Option (Nat × Text) :=
  match firstBegin? name s, best with
  | none, _ => best
  | some p, none => some (p, name)
  | some p, some (q, m) => if p < q then some (p, name) else some (q, m)

theorem firstName?_eq_foldl (names : List Text) (s : Text) : firstName? names s = (names.foldl (earlier s) none).map (·.2) := by
  have hstep : (fun best name => match firstBegin? name s, best with
      | none, _ => best
      | some p, none => some (p, name)
      | some p, some (q, _) => if p < q then some (p, name) else best) = earlier s := by
    funext best name
    unfold earlier
    cases firstBegin? name s <;> cases best <;> rfl
  rw [← hstep]
  rfl

section Earlier

variable {s n : Text} {p : Nat} {best : Option (Nat × Text)} (hbest : ∀ q ∈ best, q = (p, n) ∨ p < q.1)

include hbest

theorem earlier_self (hp : firstBegin? n s = some p) : earlier s best n = some (p, n) := by
  cases best with
  | none => simp only [earlier, hp]
  | some q =>
    simp only [earlier, hp]
    rcases hbest q rfl with rfl | hq
    · exact if_neg (Nat.lt_irrefl p)
    · exact if_pos hq

theorem earlier_other {m : Text} (hm : ∀ q ∈ firstBegin? m s, p < q) :
    (∀ q ∈ earlier s best m, q = (p, n) ∨ p < q.1) ∧ (best = some (p, n) → earlier s best m = some (p, n)) := by
  cases hq : firstBegin? m s with
  | none =>
    simp only [earlier, hq]
    exact ⟨hbest, id⟩
  | some q =>
    have hlt := hm q hq
    cases best with
    | none =>
      simp only [earlier, hq]
      refine ⟨fun r hr => ?_, by simp⟩
      obtain rfl := Option.some.inj hr
      exact .inr hlt
    | some r =>
      simp only [earlier, hq]
      refine ⟨fun r' hr' => ?_, fun he => ?_⟩
      · split at hr'
        · obtain rfl := Option.some.inj hr'
          exact .inr hlt
        · exact hbest r' hr'
      · obtain rfl := Option.some.inj he
        exact if_neg (Nat.not_lt_of_lt hlt)

end Earlier

/-- The name whose marker stands in front of the markers of all others begins first. -/
theorem firstName?_eq_some {s n : Text} {p : Nat} (hn : n ∈ names) (hp : firstBegin? n s = some p)
    (hothers : ∀ m ∈ names, m ≠ n → ∀ q ∈ firstBegin? m s, p < q) : firstName? names s = some n := by
  have main (l : List Text) (hl : ∀ m ∈ l, m ≠ n → ∀ q ∈ firstBegin? m s, p < q) (best : Option (Nat × Text))
      (hbest : ∀ q ∈ best, q = (p, n) ∨ p < q.1) (hdone : n ∈ l ∨ best = some (p, n)) :
      l.foldl (earlier s) best = some (p, n) := by
    induction l generalizing best with
    | nil => exact hdone.resolve_left List.not_mem_nil
    | cons m l ih =>
      obtain ⟨hm, hl⟩ := List.forall_mem_cons.1 hl
      rw [List.foldl_cons]
      by_cases hmn : m = n
      · subst hmn
        rw [earlier_self hbest hp]
        refine ih hl _ (fun q hq => .inl ?_) (.inr rfl)
        exact (Option.some.inj hq).symm
      · obtain ⟨hkeep, hstay⟩ := earlier_other hbest (hm hmn)
        refine ih hl _ hkeep (hdone.imp (fun h => ?_) hstay)
        exact (List.mem_cons.1 h).resolve_left (Ne.symm hmn)
  rw [firstName?_eq_foldl, main names hothers none (by simp) (.inl hn)]
  rfl

theorem firstName?_eq_none {s : Text} (h : ∀ m ∈ names, firstBegin? m s = none) : firstName? names s = none := by
  rw [firstName?_eq_foldl]
  have main (l : List Text) (hl : ∀ m ∈ l, firstBegin? m s = none) : l.foldl (earlier s) none = none := by
    induction l with
    | nil => rfl
    | cons m l ih =>
      obtain ⟨hm, hl⟩ := List.forall_mem_cons.1 hl
      have hstep : earlier s none m = none := by simp only [earlier, hm]
      rw [List.foldl_cons, hstep, ih hl]
  rw [main names h, Option.map_none]

/-- The name that begins first is the name of the first marker. -/
theorem firstName?_eq (hnames : ∀ n ∈ names, '}' ∉ n) (s : Text) :
    firstName? names s = (s.find? (Marker.beginsAny names)).map (·.value) := by
  cases hf : s.find? (Marker.beginsAny names) with
  | some f =>
    obtain ⟨hfind, hmem, hothers⟩ := Marker.find?_beginsAny hnames hf
    refine firstName?_eq_some hmem ?_ hothers
    rw [firstBegin?, hfind, Option.map_some]
  | none =>
    have hforward : Text.Forward (Marker.beginsAny names) := fun _ _ _ => rfl
    have hnil : Marker.beginsAny names none [] = none := by simp [Marker.beginsAny, Marker.after?, Text.after?]
    have hmiss := hforward.misses_of_find?_eq_none hnil hf
    refine firstName?_eq_none fun m hm => ?_
    rw [firstBegin?, (Marker.misses_begins hmiss hm).find?_eq, Option.map_none]

end Environment

end Galley
