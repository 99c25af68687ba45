import Galley.Text.Basic
/-!
# Balance of markers

Rows of begin and end markers, apart from the text they stand in. `Nested k`: every begin marker has
an end marker of its name and whatever is between them is nested too; `k` end markers are left over,
the strays. `Nested.cut`: taking out a begin marker with an end marker that no environment of the
name in between needs leaves a nested row, and no stray if there was none and the depth was even.
`Shows.cut`: a stray outside every environment of the taken names is never taken out.
-/

namespace Galley

/-- The begin or end marker of an environment. -/
inductive Mark where
  | opening (name : Text)
  | closing (name : Text)
  deriving DecidableEq

namespace Mark

def name : Mark → Text
  | opening n => n
  | closing n => n

def isOpening : Mark → Bool
  | opening _ => true
  | closing _ => false

@[simp] theorem name_opening (n : Text) : (opening n).name = n := rfl

@[simp] theorem name_closing (n : Text) : (closing n).name = n := rfl

@[simp] theorem isOpening_opening (n : Text) : (opening n).isOpening = true := rfl

@[simp] theorem isOpening_closing (n : Text) : (closing n).isOpening = false := rfl

/-! ## Depth -/

/-- How many environments `name` are open behind a row of marks when `d` are open before it;
nothing if one ends that is not open. -/
def depth (name : Text) : (d : Nat) → List Mark → Option Nat
  | d, [] => some d
  | d, opening n :: ms => depth name (if n = name then d + 1 else d) ms
  | 0, closing n :: ms => if n = name then none else depth name 0 ms
  | d + 1, closing n :: ms => depth name (if n = name then d else d + 1) ms

attribute [grind =] depth

theorem depth_closing_self (n : Text) (d : Nat) (ms : List Mark) :
    depth n d (closing n :: ms) = match d with
      | 0 => none
      | d + 1 => depth n d ms := by
  cases d <;> simp [depth]

theorem depth_closing_ne {n m : Text} (h : m ≠ n) (d : Nat) (ms : List Mark) :
    depth n d (closing m :: ms) = depth n d ms := by
  cases d <;> simp [depth, h]

theorem depth_append (n : Text) (a b : List Mark) (d : Nat) :
    depth n d (a ++ b) = (depth n d a).bind (depth n · b) := by
  induction a generalizing d with
  | nil => rfl
  | cons m a ih =>
    cases m with
    | opening m => exact ih _
    | closing m =>
      cases d with
      | zero =>
        by_cases h : m = n
        · simp [depth, h]
        · simpa [depth, h] using ih 0
      | succ d => exact ih _

theorem depth_succ {n : Text} {a : List Mark} {d e : Nat} (h : depth n d a = some e) :
    depth n (d + 1) a = some (e + 1) := by
  induction a generalizing d with
  | nil => simpa [depth] using h
  | cons m a ih =>
    cases m with
    | opening m =>
      by_cases hm : m = n
      · simp only [depth, hm, if_true] at h ⊢
        exact ih h
      · simp only [depth, hm, if_false] at h ⊢
        exact ih h
    | closing m =>
      by_cases hm : m = n
      · subst hm
        cases d with
        | zero => simp [depth] at h
        | succ d =>
          rw [depth_closing_self] at h ⊢
          exact ih h
      · rw [depth_closing_ne hm] at h ⊢
        exact ih h

/-- A row without end markers of the name never ends one that is not open. -/
theorem depth_of_closing_not_mem {n : Text} {a : List Mark} (h : closing n ∉ a) (d : Nat) :
    ∃ e, depth n d a = some e ∧ d ≤ e := by
  induction a generalizing d with
  | nil => exact ⟨d, rfl, Nat.le_refl d⟩
  | cons m a ih =>
    simp only [List.mem_cons, not_or] at h
    cases m with
    | opening m =>
      obtain ⟨e, he, hle⟩ := ih h.2 (if m = n then d + 1 else d)
      refine ⟨e, he, ?_⟩
      split at hle <;> omega
    | closing m =>
      rw [depth_closing_ne (fun hm => h.1 (by rw [hm]))]
      exact ih h.2 d

/-- A row without markers of the name leaves the depth as it is. -/
theorem depth_of_not_mem {n : Text} {a : List Mark} (ho : opening n ∉ a) (hc : closing n ∉ a) (d : Nat) :
    depth n d a = some d := by
  induction a generalizing d with
  | nil => rfl
  | cons m a ih =>
    simp only [List.mem_cons, not_or] at ho hc
    cases m with
    | opening m =>
      simp only [depth, if_neg (fun hm : m = n => ho.1 (by rw [hm]))]
      exact ih ho.2 hc.2 d
    | closing m =>
      rw [depth_closing_ne (fun hm => hc.1 (by rw [hm]))]
      exact ih ho.2 hc.2 d

/-- A whole environment of the name leaves the depth as it is. -/
theorem depth_environment {n : Text} {b : List Mark} (hb : depth n 0 b = some 0) (p q : List Mark) (d : Nat) :
    depth n d (p ++ opening n :: (b ++ closing n :: q)) = depth n d (p ++ q) := by
  have shift (d : Nat) : depth n d b = some d := by
    induction d with
    | zero => exact hb
    | succ d ih => exact depth_succ ih
  simp only [depth_append]
  congr 1
  funext d
  simp [depth, depth_append, shift (d + 1)]

theorem depth_filter {n : Text} {taken : Text → Bool} (hn : taken n = true) (ms : List Mark) (d : Nat) :
    depth n d (ms.filter fun m => taken m.name) = depth n d ms := by
  induction ms generalizing d with
  | nil => rfl
  | cons m ms ih =>
    cases hm : taken m.name with
    | true =>
      rw [List.filter_cons_of_pos (by simpa using hm)]
      cases m with
      | opening m => exact ih _
      | closing m =>
        cases d with
        | zero => simp only [depth, ih]
        | succ d => exact ih _
    | false =>
      have hne : m.name ≠ n := fun h => by rw [h, hn] at hm; cases hm
      rw [List.filter_cons_of_neg (by simp [hm]), ih]
      cases m with
      | opening m => simp only [depth, if_neg (show m ≠ n from hne)]
      | closing m => rw [depth_closing_ne (show m ≠ n from hne)]

end Mark

open Mark

/-! ## Nested rows -/

/-- Every begin marker has its end marker; `strays` end markers have no begin marker. -/
inductive Nested : (strays : Nat) → List Mark → Prop
  | nil : Nested 0 []
  | stray {k ms} (n : Text) : Nested k ms → Nested (k + 1) (closing n :: ms)
  | environment {j k body ms} (n : Text) :
      Nested j body → Nested k ms → Nested (j + k) (opening n :: (body ++ closing n :: ms))

namespace Nested

theorem append {j k : Nat} {a b : List Mark} (ha : Nested j a) (hb : Nested k b) : Nested (j + k) (a ++ b) := by
  induction ha with
  | nil => simpa using hb
  | stray n _ ih =>
    rw [Nat.add_right_comm]
    exact ih.stray n
  | @environment j' k' body ms n hbody _ _ ih =>
    have h := Nested.environment n hbody ih
    rw [Nat.add_assoc]
    simpa using h

/-- Without the beginning of a row, the end markers of what it opened are strays. -/
theorem suffix {k : Nat} {ms : List Mark} (h : Nested k ms) {a b : List Mark} (he : ms = a ++ b) :
    ∃ j, Nested j b := by
  induction h generalizing a b with
  | nil =>
    obtain ⟨-, rfl⟩ := List.append_eq_nil_iff.1 he.symm
    exact ⟨0, .nil⟩
  | stray n h ih =>
    rcases List.cons_eq_append_iff.1 he with ⟨rfl, rfl⟩ | ⟨a, rfl, rfl⟩
    · exact ⟨_, h.stray n⟩
    · exact ih rfl
  | environment n hbody h ihb ih =>
    rcases List.cons_eq_append_iff.1 he with ⟨rfl, rfl⟩ | ⟨a, rfl, hr⟩
    · exact ⟨_, hbody.environment n h⟩
    · rcases List.append_eq_append_iff.1 hr with ⟨c, rfl, hc⟩ | ⟨c, hc, rfl⟩
      · rcases List.cons_eq_append_iff.1 hc with ⟨rfl, rfl⟩ | ⟨c, rfl, rfl⟩
        · exact ⟨_, h.stray n⟩
        · exact ih rfl
      · obtain ⟨j, hj⟩ := ihb hc
        exact ⟨_, hj.append (h.stray n)⟩

/-- A nested row opens nothing that it does not close. -/
theorem depth_le {k : Nat} {ms : List Mark} (h : Nested k ms) {n : Text} {d e : Nat}
    (hd : depth n d ms = some e) : e ≤ d := by
  induction h generalizing d e with
  | nil => simp_all [depth]
  | stray m _ ih =>
    by_cases hm : m = n
    · subst hm
      cases d with
      | zero => simp [depth] at hd
      | succ d =>
        rw [depth_closing_self] at hd
        exact Nat.le_succ_of_le (ih hd)
    · rw [depth_closing_ne hm] at hd
      exact ih hd
  | @environment j k body ms m _ _ ihb ih =>
    by_cases hm : m = n
    · subst hm
      simp only [depth, if_true, depth_append] at hd
      obtain ⟨f, hf, hd⟩ := Option.bind_eq_some_iff.1 hd
      have hle := ihb hf
      cases f with
      | zero => simp [depth] at hd
      | succ f =>
        rw [depth_closing_self] at hd
        exact Nat.le_trans (ih hd) (Nat.le_of_succ_le_succ hle)
    · simp only [depth, hm, if_false, depth_append] at hd
      obtain ⟨f, hf, hd⟩ := Option.bind_eq_some_iff.1 hd
      rw [depth_closing_ne hm] at hd
      exact Nat.le_trans (ih hd) (ihb hf)

/-- Without strays a row leaves every depth as it is. -/
theorem depth_eq {k : Nat} {ms : List Mark} (h : Nested k ms) (hk : k = 0) (n : Text) (d : Nat) :
    depth n d ms = some d := by
  induction h generalizing d with
  | nil => rfl
  | stray => omega
  | @environment j k body ms m _ _ ihb ih =>
    by_cases hm : m = n
    · subst hm
      simp only [depth, if_true, depth_append, ihb (by omega), Option.bind_some, ih (by omega)]
    · simp only [depth, hm, if_false, depth_append, ihb (by omega), Option.bind_some, depth_closing_ne hm,
        ih (by omega)]

/-- What follows a begin marker ends the environment. -/
theorem depth_rest_eq_none {k : Nat} {n : Text} {ms : List Mark} (h : Nested k (opening n :: ms)) :
    depth n 0 ms = none := by
  cases hd : depth n 0 ms with
  | none => rfl
  | some e =>
    have hs : depth n 0 (opening n :: ms) = some (e + 1) := by
      simpa [depth] using depth_succ hd
    exact absurd (h.depth_le hs) (by omega)

theorem count {k : Nat} {ms : List Mark} (h : Nested k ms) :
    ms.countP (!·.isOpening) = ms.countP (·.isOpening) + k := by
  induction h with
  | nil => rfl
  | stray n _ ih => simp [ih, Nat.add_assoc]
  | environment n _ _ ihb ih =>
    simp only [List.countP_cons, List.countP_append, ihb, ih, isOpening_opening, isOpening_closing]
    simp
    omega

theorem filter {k : Nat} {ms : List Mark} (h : Nested k ms) (p : Text → Bool) :
    ∃ j, Nested j (ms.filter fun m => p m.name) := by
  induction h with
  | nil => exact ⟨0, .nil⟩
  | stray n _ ih =>
    obtain ⟨j, ih⟩ := ih
    cases hn : p n with
    | true => exact ⟨_, by simpa [hn] using ih.stray n⟩
    | false => exact ⟨j, by simpa [hn] using ih⟩
  | environment n _ _ ihb ih =>
    obtain ⟨i, ihb⟩ := ihb
    obtain ⟨j, ih⟩ := ih
    cases hn : p n with
    | true => exact ⟨_, by simpa [hn] using ihb.environment n ih⟩
    | false => exact ⟨_, by simpa [hn] using ihb.append ih⟩

theorem insert {k : Nat} {ms : List Mark} (h : Nested k ms) {j : Nat} {x : List Mark} (hx : Nested j x)
    {a b : List Mark} (he : ms = a ++ b) : ∃ i, Nested i (a ++ x ++ b) := by
  induction h generalizing a b with
  | nil =>
    obtain ⟨rfl, rfl⟩ := List.append_eq_nil_iff.1 he.symm
    exact ⟨j, by simpa using hx⟩
  | stray n h ih =>
    rcases List.cons_eq_append_iff.1 he with ⟨rfl, rfl⟩ | ⟨a, rfl, rfl⟩
    · exact ⟨_, hx.append (h.stray n)⟩
    · obtain ⟨i, hi⟩ := ih rfl
      exact ⟨_, hi.stray n⟩
  | environment n hbody h ihb ih =>
    rcases List.cons_eq_append_iff.1 he with ⟨rfl, rfl⟩ | ⟨a, rfl, hr⟩
    · exact ⟨_, hx.append (hbody.environment n h)⟩
    · rcases List.append_eq_append_iff.1 hr with ⟨c, rfl, hc⟩ | ⟨c, hc, rfl⟩
      · rcases List.cons_eq_append_iff.1 hc with ⟨rfl, rfl⟩ | ⟨c, rfl, rfl⟩
        · exact ⟨_, by simpa using (hbody.append hx).environment n h⟩
        · obtain ⟨i, hi⟩ := ih rfl
          exact ⟨_, by simpa using hbody.environment n hi⟩
      · obtain ⟨i, hi⟩ := ihb hc
        exact ⟨_, by simpa using hi.environment n h⟩

/-- Taking out a begin marker and an end marker of its name leaves a nested row, if no environment of
the name between them is closed without being open. It leaves no stray if there was none and all
environments of the name between them are closed. -/
theorem cut {k : Nat} {ms : List Mark} (h : Nested k ms) {n : Text} {b : List Mark} {e : Nat}
    (hb : depth n 0 b = some e) {p q : List Mark} (hm : ms = p ++ opening n :: (b ++ closing n :: q)) :
    ∃ j, Nested j (p ++ q) ∧ (k = 0 → e = 0 → j = 0) := by
  induction h generalizing p q with
  | nil => simp at hm
  | stray m h ih =>
    rcases List.cons_eq_append_iff.1 hm with ⟨-, hx⟩ | ⟨p, rfl, hx⟩
    · cases hx
    · obtain ⟨j, hj, -⟩ := ih hx
      exact ⟨_, hj.stray m, by omega⟩
  | @environment j k body ms m hbody h ihb ih =>
    rcases List.cons_eq_append_iff.1 hm with ⟨rfl, hx⟩ | ⟨p, rfl, hx⟩
    · -- the marker opens this environment, which ends at its own end marker or at a stray inside
      obtain ⟨hn, hx⟩ := List.cons.inj hx
      obtain rfl := Mark.opening.inj hn
      rcases List.append_eq_append_iff.1 hx with ⟨c, rfl, hc⟩ | ⟨c, rfl, hc⟩
      · rcases List.cons_eq_append_iff.1 hc with ⟨rfl, hc⟩ | ⟨c, rfl, rfl⟩
        · obtain rfl := (List.cons.inj hc).2
          exact ⟨k, h, by omega⟩
        · obtain ⟨i, hi⟩ := hbody.suffix (a := b ++ [closing n]) (b := c) (by simp)
          refine ⟨_, hi.append (h.stray n), fun hk he => ?_⟩
          have hz := hbody.depth_eq (by omega) n 0
          rw [depth_append, hb, he] at hz
          simp [depth] at hz
      · rcases List.cons_eq_append_iff.1 hc with ⟨rfl, hc⟩ | ⟨c, rfl, -⟩
        · obtain rfl := (List.cons.inj hc).2
          exact ⟨k, h, by omega⟩
        · rw [depth_append] at hb
          obtain ⟨f, hf, hb⟩ := Option.bind_eq_some_iff.1 hb
          obtain rfl : f = 0 := Nat.le_zero.1 (hbody.depth_le hf)
          simp [depth] at hb
    · rcases List.append_eq_append_iff.1 hx with ⟨c, rfl, hc⟩ | ⟨c, rfl, hc⟩
      · rcases List.cons_eq_append_iff.1 hc with ⟨-, hd⟩ | ⟨c, rfl, hd⟩
        · cases hd
        · obtain ⟨i, hi, hz⟩ := ih hd
          exact ⟨_, by simpa using hbody.environment m hi, by omega⟩
      · rcases List.cons_eq_append_iff.1 hc with ⟨-, hd⟩ | ⟨c, rfl, hd⟩
        · cases hd
        · -- the marker stands in the body: what follows it there ends its environment
          obtain ⟨i, hi⟩ := hbody.suffix rfl
          have hnone := hi.depth_rest_eq_none
          rcases List.append_eq_append_iff.1 hd with ⟨a, rfl, ha⟩ | ⟨a, rfl, ha⟩
          · rcases List.cons_eq_append_iff.1 ha with ⟨rfl, -⟩ | ⟨a, rfl, rfl⟩
            · simp [hb] at hnone
            · obtain ⟨i, hi, hz⟩ := ihb rfl
              exact ⟨_, by simpa using hi.environment m h, by omega⟩
          · rw [depth_append, hnone] at hb
            cases hb

theorem closing_mem {k : Nat} {ms : List Mark} (h : Nested k ms) {n : Text} (hn : opening n ∈ ms) :
    closing n ∈ ms := by
  obtain ⟨a, b, rfl⟩ := List.append_of_mem hn
  obtain ⟨j, hj⟩ := h.suffix rfl
  refine Classical.byContradiction fun hc => ?_
  obtain ⟨e, he, -⟩ := depth_of_closing_not_mem (n := n) (a := b) (by simp_all) 0
  simp [hj.depth_rest_eq_none] at he

/-- The first end marker behind an environment that holds another is in the environment. -/
theorem first_closing {k : Nat} {body : List Mark} (h : Nested k body) {n : Text} (ho : opening n ∈ body)
    {b q v : List Mark} (hb : closing n ∉ b) (he : body ++ closing n :: v = b ++ closing n :: q) :
    ∃ c j, q = c ++ closing n :: v ∧ Nested j c := by
  have hc := h.closing_mem ho
  rcases List.append_eq_append_iff.1 he with ⟨c, rfl, -⟩ | ⟨c, rfl, hx⟩
  · exact absurd (List.mem_append_left c hc) hb
  · rcases List.cons_eq_append_iff.1 hx with ⟨rfl, -⟩ | ⟨c, rfl, rfl⟩
    · exact absurd hc (by simpa using hb)
    · obtain ⟨j, hj⟩ := h.suffix (a := b ++ [closing n]) (b := c) (by simp)
      exact ⟨c, j, rfl, hj⟩

end Nested

/-! ## Taking environments out -/

/-- One row becomes another by taking out environments of taken names, each up to its matching end
marker. -/
inductive Cuts (taken : Text → Bool) : List Mark → List Mark → Prop
  | refl (ms : List Mark) : Cuts taken ms ms
  | cut {ms p b q : List Mark} {n : Text} : Cuts taken ms (p ++ opening n :: (b ++ closing n :: q)) →
      taken n = true → depth n 0 b = some 0 → Cuts taken ms (p ++ q)

namespace Cuts

variable {taken : Text → Bool} {a b c : List Mark}

theorem trans (hab : Cuts taken a b) (hbc : Cuts taken b c) : Cuts taken a c := by
  induction hbc with
  | refl => exact hab
  | cut _ hn hb ih => exact ih.cut hn hb

theorem nested {k : Nat} (h : Cuts taken a b) (ha : Nested k a) : ∃ j, Nested j b ∧ (k = 0 → j = 0) := by
  induction h with
  | refl => exact ⟨k, ha, id⟩
  | cut _ _ hb ih =>
    obtain ⟨j, hj, hk⟩ := ih
    obtain ⟨i, hi, hz⟩ := hj.cut hb rfl
    exact ⟨i, hi, fun h => hz (hk h) rfl⟩

end Cuts

/-! ## Rows in which no environment of a name holds another -/

/-- Every environment `name` begins where no other is open. -/
def Flat (name : Text) (ms : List Mark) : Prop :=
  ∀ p q, ms = p ++ opening name :: q → depth name 0 p = some 0

namespace Flat

variable {n : Text} {p b q : List Mark}

/-- The first end marker behind a begin marker is the one that matches. -/
theorem depth_eq_zero (h : Flat n (p ++ opening n :: (b ++ closing n :: q))) (hb : closing n ∉ b) :
    depth n 0 b = some 0 := by
  refine depth_of_not_mem (fun ho => ?_) hb 0
  obtain ⟨x, y, rfl⟩ := List.append_of_mem ho
  have hz := h (p ++ opening n :: x) (y ++ closing n :: q) (by simp)
  obtain ⟨e, he, hle⟩ := depth_of_closing_not_mem (n := n) (a := x) (by simp_all) 1
  rw [depth_append, h p _ rfl] at hz
  simp only [Option.bind_some, depth, if_true, Nat.zero_add, he, Option.some.injEq] at hz
  omega

theorem cut (h : Flat n (p ++ opening n :: (b ++ closing n :: q))) (hb : depth n 0 b = some 0) :
    Flat n (p ++ q) := by
  intro x y hxy
  rcases List.append_eq_append_iff.1 hxy with ⟨c, rfl, rfl⟩ | ⟨c, rfl, hc⟩
  · rw [← depth_environment hb]
    exact h _ y (by simp)
  · rcases List.cons_eq_append_iff.1 hc with ⟨rfl, rfl⟩ | ⟨c, rfl, -⟩
    · have hz := h (x ++ opening n :: (b ++ [closing n])) y (by simp)
      rwa [depth_environment hb x [], List.append_nil] at hz
    · exact h x (c ++ opening n :: (b ++ closing n :: q)) (by simp)

end Flat

/-! ## What no taken environment holds -/

section Taken

variable {taken : Text → Bool} {n : Text} {u v : List Mark}

/-- Between `u` and `v` stands something that is in no environment of a taken name. -/
structure Shown (taken : Text → Bool) (u v : List Mark) : Prop where
  whole : ∃ k, Nested k (u ++ v)
  before : ∃ k, Nested k (u.filter fun m => taken m.name)
  after : ∃ k, Nested k (v.filter fun m => taken m.name)

namespace Shown

theorem of_nested {k : Nat} (h : Nested k v) : Shown taken [] v :=
  ⟨⟨k, h⟩, ⟨0, .nil⟩, h.filter _⟩

/-- An environment of another name around it takes nothing away. -/
theorem inside {k : Nat} {w : List Mark} (h : Shown taken u v) (hn : taken n = false) (hw : Nested k w) :
    Shown taken (opening n :: u) (v ++ closing n :: w) := by
  obtain ⟨⟨i, hi⟩, hj, ⟨l, hl⟩⟩ := h
  obtain ⟨m, hm⟩ := hw.filter taken
  exact ⟨⟨_, by simpa using hi.environment n hw⟩, by simpa [hn] using hj, ⟨_, by simpa [hn] using hl.append hm⟩⟩

theorem behind {k : Nat} {x : List Mark} (h : Shown taken u v) (hx : Nested k x) : Shown taken (x ++ u) v := by
  obtain ⟨⟨i, hi⟩, ⟨j, hj⟩, hv⟩ := h
  obtain ⟨l, hl⟩ := hx.filter taken
  exact ⟨⟨_, by simpa using hx.append hi⟩, ⟨_, by simpa using hl.append hj⟩, hv⟩

theorem cut_before {p b q : List Mark} {e : Nat} (h : Shown taken (p ++ opening n :: (b ++ closing n :: q)) v)
    (hn : taken n = true) (hb : depth n 0 b = some e) : Shown taken (p ++ q) v := by
  obtain ⟨⟨i, hi⟩, ⟨j, hj⟩, hk⟩ := h
  obtain ⟨i, hi, -⟩ := hi.cut hb (p := p) (q := q ++ v) (by simp)
  rw [← depth_filter hn] at hb
  obtain ⟨j, hj, -⟩ := hj.cut hb (p := p.filter fun m => taken m.name)
    (q := q.filter fun m => taken m.name) (by simp [hn])
  exact ⟨⟨i, by simpa using hi⟩, ⟨j, by simpa using hj⟩, hk⟩

theorem cut_after {p b q : List Mark} {e : Nat} (h : Shown taken u (p ++ opening n :: (b ++ closing n :: q)))
    (hn : taken n = true) (hb : depth n 0 b = some e) : Shown taken u (p ++ q) := by
  obtain ⟨⟨i, hi⟩, hj, ⟨k, hk⟩⟩ := h
  obtain ⟨i, hi, -⟩ := hi.cut hb (p := u ++ p) (q := q) (by simp)
  rw [← depth_filter hn] at hb
  obtain ⟨k, hk, -⟩ := hk.cut hb (p := p.filter fun m => taken m.name)
    (q := q.filter fun m => taken m.name) (by simp [hn])
  exact ⟨⟨i, by simpa using hi⟩, hj, ⟨k, by simpa using hk⟩⟩

theorem extend {j : Nat} {x : List Mark} (h : Shown taken u v) (hx : Nested j x) : Shown taken (u ++ x) v := by
  obtain ⟨⟨i, hi⟩, ⟨k, hk⟩, hv⟩ := h
  obtain ⟨l, hl⟩ := hx.filter taken
  exact ⟨hi.insert hx rfl, ⟨_, by simpa using hk.append hl⟩, hv⟩

/-- An environment of a taken name that begins before the gap ends before it. -/
theorem ends_before {p r x b q : List Mark} {e : Nat} (h : Shown taken (p ++ opening n :: r) v)
    (hn : taken n = true) (hb : depth n 0 b = some e) (hr : r ++ x = b ++ closing n :: q) :
    ∃ c, r = b ++ closing n :: c ∧ q = c ++ x := by
  obtain ⟨k, hk⟩ := h.before
  obtain ⟨j, hj⟩ := hk.suffix (a := p.filter fun m => taken m.name)
    (b := opening n :: r.filter fun m => taken m.name) (by simp [hn])
  have hnone := hj.depth_rest_eq_none
  rw [depth_filter hn] at hnone
  rcases List.append_eq_append_iff.1 hr with ⟨c, rfl, -⟩ | ⟨c, rfl, hc⟩
  · rw [depth_append, hnone] at hb
    cases hb
  · rcases List.cons_eq_append_iff.1 hc with ⟨rfl, -⟩ | ⟨c, rfl, rfl⟩
    · simp [hb] at hnone
    · exact ⟨c, rfl, rfl⟩

end Shown

/-- An end marker without a begin marker stands in no environment of a taken name. -/
def ShowsStray (taken : Text → Bool) (ms : List Mark) : Prop :=
  ∃ u n v, ms = u ++ closing n :: v ∧ Shown taken u v

/-- An environment `n` that holds another stands in no environment of a taken name. -/
def ShowsNesting (taken : Text → Bool) (n : Text) (ms : List Mark) : Prop :=
  ∃ u body v k, ms = u ++ opening n :: (body ++ closing n :: v) ∧ Shown taken u v ∧ Nested k body ∧ opening n ∈ body

theorem ShowsStray.cut {ms p b q : List Mark} {e : Nat} (h : ShowsStray taken ms) (hn : taken n = true)
    (hb : depth n 0 b = some e) (hm : ms = p ++ opening n :: (b ++ closing n :: q)) :
    ShowsStray taken (p ++ q) := by
  obtain ⟨u, m, v, rfl, hs⟩ := h
  rcases List.append_eq_append_iff.1 hm with ⟨c, rfl, hc⟩ | ⟨c, rfl, hc⟩
  · rcases List.cons_eq_append_iff.1 hc with ⟨-, hd⟩ | ⟨c, rfl, rfl⟩
    · cases hd
    · exact ⟨u, m, c ++ q, by simp, hs.cut_after hn hb⟩
  · rcases List.cons_eq_append_iff.1 hc with ⟨-, hd⟩ | ⟨c, rfl, hd⟩
    · cases hd
    · obtain ⟨c, rfl, rfl⟩ := hs.ends_before hn hb hd.symm
      exact ⟨p ++ c, m, v, by simp, hs.cut_before hn hb⟩

theorem ShowsStray.cuts {ms ms' : List Mark} (hs : ShowsStray taken ms) (h : Cuts taken ms ms') :
    ShowsStray taken ms' := by
  induction h with
  | refl => exact hs
  | cut _ hn hb ih => exact ih.cut hn hb rfl

/-- A row that shows a stray has more end markers than begin markers. -/
theorem ShowsStray.count_lt {ms : List Mark} (h : ShowsStray taken ms) :
    ms.countP (·.isOpening) < ms.countP (!·.isOpening) := by
  obtain ⟨u, m, v, rfl, hs⟩ := h
  obtain ⟨k, hk⟩ := hs.whole
  have hc := hk.count
  simp only [List.countP_append, List.countP_cons, isOpening_closing] at hc ⊢
  simp
  omega

/-- Where the first environment `n` is cut at the first end marker `n`, an environment that holds
another leaves a stray. -/
theorem ShowsNesting.cut {ms p b q : List Mark} (h : ShowsNesting taken n ms) (hn : taken n = true)
    (hp : opening n ∉ p) (hb : closing n ∉ b) (hm : ms = p ++ opening n :: (b ++ closing n :: q)) :
    ShowsStray taken (p ++ q) ∨ ShowsNesting taken n (p ++ q) := by
  obtain ⟨u, body, v, k, rfl, hs, hbody, ho⟩ := h
  obtain ⟨e, he, -⟩ := depth_of_closing_not_mem hb 0
  rcases List.append_eq_append_iff.1 hm with ⟨c, rfl, hc⟩ | ⟨c, rfl, hc⟩
  · rcases List.cons_eq_append_iff.1 hc with ⟨rfl, hd⟩ | ⟨c, rfl, -⟩
    · -- the cut begins with the outer environment and ends inside it
      obtain ⟨c, j, rfl, hj⟩ := hbody.first_closing ho hb (List.cons.inj hd).2.symm
      exact .inl ⟨u ++ c, n, v, by simp, hs.extend hj⟩
    · simp at hp
  · rcases List.cons_eq_append_iff.1 hc with ⟨rfl, hd⟩ | ⟨c, rfl, hd⟩
    · obtain ⟨c, j, rfl, hj⟩ := hbody.first_closing ho hb (List.cons.inj hd).2
      rw [List.append_nil] at hs
      exact .inl ⟨p ++ c, n, v, by simp, hs.extend hj⟩
    · obtain ⟨c, rfl, rfl⟩ := hs.ends_before hn he hd.symm
      exact .inr ⟨p ++ c, body, v, k, by simp, hs.cut_before hn he, hbody, ho⟩

end Taken

end Galley
