import Galley.Article
import Galley.Proofs.GroupGrammar
import Galley.Proofs.StrippedBraces
/-!
# What an open group passes over

A group is read character by character, and only its delimiters and braces that have been opened in it count
(`Progress`). A construct whose braces are paired, and whose brackets are too, changes nothing about that (`Passed`): a group that
is open in front of it either does not reach it or ends behind it (`rest?_passed`).
-/

namespace Galley

namespace Group

/-- How far a group has been read: the bracket groups open in it, for a bracket group, the open brace groups, and whether
    the next character is inert. -/
structure Progress where
  brackets : Option Nat
  braces : Nat
  inert : Bool

namespace Progress

def start : Delimiter → Progress
  | .brace => ⟨none, 0, false⟩
  | .bracket => ⟨some 0, 0, false⟩

/-- The progress behind a character; none if it closes the group. -/
def step (p : Progress) (c : Char) : Option Progress :=
  if p.inert then some { p with inert := false }
  else if c = '\\' then some { p with inert := true }
  else if c = '{' then some { p with braces := p.braces + 1 }
  else if c = '}' then if p.brackets = none ∧ p.braces = 0 then none else some { p with braces := p.braces - 1 }
  else if p.braces ≠ 0 then some p
  else match p.brackets with
    | none => some p
    | some d =>
      if c = '[' then some { p with brackets := some (d + 1) }
      else if c = ']' then if d = 0 then none else some { p with brackets := some (d - 1) }
      else some p

/-- The progress behind a text in which the group does not close. -/
def run (p : Progress) (s : Text) : Option Progress := s.foldlM step p

/-- What follows the delimiter that closes the group. -/
def rest? : Progress → Text → Option Text
  | _, [] => none
  | p, c :: s =>
    match step p c with
    | some p => rest? p s
    | none => some s

variable {p p' : Progress} {s t r : Text}

@[simp] theorem run_nil : run p [] = some p := rfl

theorem run_cons (c : Char) : run p (c :: s) = (step p c).bind (run · s) := rfl

theorem run_append : run p (s ++ t) = (run p s).bind (run · t) := List.foldlM_append ..

theorem rest?_append_of_run (h : run p s = some p') (t : Text) : rest? p (s ++ t) = rest? p' t := by
  induction s generalizing p with
  | nil =>
    cases h
    rfl
  | cons c s ih =>
    obtain ⟨q, hstep, h⟩ := Option.bind_eq_some_iff.1 h
    rw [List.cons_append, rest?, hstep]
    exact ih h

theorem rest?_append_of_closed (h : run p s = none) (t : Text) : ∃ r, r <:+ s ∧ rest? p (s ++ t) = some (r ++ t) := by
  induction s generalizing p with
  | nil => cases h
  | cons c s ih =>
    rw [List.cons_append, rest?]
    cases hstep : step p c with
    | none => exact ⟨s, List.suffix_cons c s, rfl⟩
    | some q =>
      rw [run_cons, hstep] at h
      obtain ⟨r, hr, hrest⟩ := ih h
      exact ⟨r, hr.trans (List.suffix_cons c s), hrest⟩

theorem rest?_suffix (h : rest? p s = some r) : r <:+ s ∧ r.length < s.length := by
  induction s generalizing p with
  | nil => cases h
  | cons c s ih =>
    rw [rest?] at h
    split at h
    · obtain ⟨hsuffix, hlen⟩ := ih h
      exact ⟨hsuffix.trans (List.suffix_cons c s), by rw [List.length_cons]; omega⟩
    · cases h
      exact ⟨List.suffix_cons c r, by simp⟩

/-- A group stays of its kind. -/
theorem isSome_of_run (h : run p s = some p') : p'.brackets.isSome = p.brackets.isSome := by
  induction s generalizing p with
  | nil =>
    cases h
    rfl
  | cons c s ih =>
    obtain ⟨q, hstep, h⟩ := Option.bind_eq_some_iff.1 h
    rw [ih h]
    clear ih h
    unfold step at hstep
    grind

end Progress

open Progress

theorem map_snd_keep (cs : Text) (o : Option (Text × Text)) : (keep cs o).map Prod.snd = o.map Prod.snd := by
  cases o <;> rfl

theorem braceRest_rest? (d : Nat) (s : Text) :
    (braceRest false d false s).map Prod.snd = rest? ⟨none, d, false⟩ s := by
  induction s using Text.escapeInduct generalizing d with
  | nil => rfl
  | last => rfl
  | escape c s ih =>
    have hread : braceRest false d false ('\\' :: c :: s) = keep ['\\', c] (braceRest false d false s) := rfl
    rw [hread, map_snd_keep, ih]
    rfl
  | char c s hc ih =>
    rw [braceRest_cons hc, rest?, step]
    simp only [Bool.false_eq_true, if_false, hc]
    split
    · rw [map_snd_keep, ih]
    · split
      · cases d with
        | zero => rfl
        | succ d => simp [map_snd_keep, ih]
      · rw [map_snd_keep, ih, ite_self]

theorem bracketRest_rest? (d n : Nat) (s : Text) :
    (bracketRest false d n false s).map Prod.snd = rest? ⟨some d, n, false⟩ s := by
  induction s using Text.escapeInduct generalizing d n with
  | nil => rfl
  | last => rfl
  | escape c s ih =>
    have hread : bracketRest false d n false ('\\' :: c :: s) = keep ['\\', c] (bracketRest false d n false s) := rfl
    rw [hread, map_snd_keep, ih]
    rfl
  | char c s hc ih =>
    rw [bracketRest_step hc, rest?, step]
    simp only [Bool.false_eq_true, if_false, hc]
    split
    · rw [map_snd_keep, ih]
    · split
      · simp [map_snd_keep, ih]
      · cases n with
        | succ n => simp [map_snd_keep, ih]
        | zero =>
          split
          · simp_all [map_snd_keep]
          · split
            · cases d with
              | zero => simp_all
              | succ d => simp_all [map_snd_keep]
            · simp_all [map_snd_keep]

theorem inside?_rest? (d : Delimiter) (s : Text) : (inside? d false s).map Prod.snd = rest? (start d) s := by
  cases d with
  | brace => exact braceRest_rest? 0 s
  | bracket => exact bracketRest_rest? 0 0 s

/-- A group does not close in its content. -/
theorem run_of_inside? {d : Delimiter} {a rest : Text} (h : inside? d false (a ++ d.closer :: rest) = some (a, rest)) :
    run (start d) a = some (start d) := by
  have hrest : rest? (start d) (a ++ d.closer :: rest) = some rest := by
    rw [← inside?_rest?, h]
    rfl
  cases hrun : run (start d) a with
  | none =>
    obtain ⟨r, -, hr⟩ := rest?_append_of_closed hrun (d.closer :: rest)
    rw [hrest] at hr
    have := congrArg List.length (Option.some.inj hr)
    simp at this
    omega
  | some p =>
    have hkind : p.brackets.isSome = (start d).brackets.isSome := isSome_of_run hrun
    rw [rest?_append_of_run hrun, rest?] at hrest
    split at hrest
    · have := (rest?_suffix hrest).2
      omega
    · rename_i hstep
      obtain ⟨k, n, e⟩ := p
      cases d <;> simp only [start, step, Delimiter.closer] at hstep hkind ⊢ <;> grind

/-- It closes behind such a content whatever follows. -/
theorem rest?_of_run {d : Delimiter} {a : Text} (h : run (start d) a = some (start d)) (rest : Text) :
    rest? (start d) (a ++ d.closer :: rest) = some rest := by
  rw [rest?_append_of_run h]
  cases d <;> rfl

/-- No group notices the text, whichever it is and wherever it stands, but for a backslash in front. -/
def Passed (t : Text) : Prop := ∀ p, run p t = some { p with inert := false }

/-- A group that is open in front of such a text closes before or behind it. -/
theorem rest?_passed {p : Progress} {b t q r : Text} (ht : Passed t) (h : rest? p (b ++ (t ++ q)) = some r) :
    (∃ b', b' <:+ b ∧ r = b' ++ (t ++ q)) ∨ r <:+ q := by
  cases hrun : run p b with
  | none =>
    obtain ⟨b', hb', hr⟩ := rest?_append_of_closed hrun (t ++ q)
    rw [hr] at h
    exact .inl ⟨b', hb', (Option.some.inj h).symm⟩
  | some p' =>
    rw [rest?_append_of_run hrun, rest?_append_of_run (ht p')] at h
    exact .inr (rest?_suffix h).1

/-! ## Texts that are passed over -/

namespace Progress

variable {k : Option Nat} {d d' n n' : Nat} {e e' : Bool} {a t : Text}

theorem inert_of_run {p p' : Progress} (h : run p t = some p') : p'.inert = behind not p.inert t := by
  induction t generalizing p with
  | nil =>
    cases h
    rfl
  | cons c t ih =>
    obtain ⟨q, hstep, h⟩ := Option.bind_eq_some_iff.1 h
    have hbit : q.inert = (decide (c = '\\') && !p.inert) := by
      unfold step at hstep
      grind
    rw [ih h, hbit, behind_cons]

/-- Inside braces only braces count. -/
theorem run_of_depth (h : depth (d, e) a = some (d', e')) : run ⟨k, d + 1, e⟩ a = some ⟨k, d' + 1, e'⟩ := by
  induction a generalizing d e with
  | nil =>
    cases h
    rfl
  | cons c a ih =>
    obtain ⟨⟨d₁, e₁⟩, hstep, h⟩ := Option.bind_eq_some_iff.1 h
    have hrun : step ⟨k, d + 1, e⟩ c = some ⟨k, d₁ + 1, e₁⟩ := by
      unfold depthStep at hstep
      unfold step
      grind
    rw [run_cons, hrun]
    exact ih h

/-- In a brace group too. -/
theorem run_brace (h : depth (d, e) a = some (d', e')) : run ⟨none, d, e⟩ a = some ⟨none, d', e'⟩ := by
  induction a generalizing d e with
  | nil =>
    cases h
    rfl
  | cons c a ih =>
    obtain ⟨⟨d₁, e₁⟩, hstep, h⟩ := Option.bind_eq_some_iff.1 h
    have hrun : step ⟨none, d, e⟩ c = some ⟨none, d₁, e₁⟩ := by
      unfold depthStep at hstep
      unfold step
      grind
    rw [run_cons, hrun]
    exact ih h

theorem step_deeper {c : Char} {p : Progress} (h : step ⟨some d, n, e⟩ c = some p) (m : Nat) :
    ∃ d₁, p.brackets = some d₁ ∧ step ⟨some (d + m), n, e⟩ c = some ⟨some (d₁ + m), p.braces, p.inert⟩ := by
  simp only [step] at h ⊢
  split at h
  · cases h
    exact ⟨d, rfl, by simp [*]⟩
  · split at h
    · cases h
      exact ⟨d, rfl, by simp [*]⟩
    · split at h
      · cases h
        exact ⟨d, rfl, by simp [*]⟩
      · split at h
        · cases h
          exact ⟨d, rfl, by simp [*]⟩
        · split at h
          · cases h
            exact ⟨d, rfl, by simp [*]⟩
          · split at h
            · cases h
              exact ⟨d + 1, rfl, by simp [*]; omega⟩
            · split at h
              · split at h
                · cases h
                · cases h
                  exact ⟨d - 1, rfl, by simp [*]; omega⟩
              · cases h
                exact ⟨d, rfl, by simp [*]⟩

/-- More bracket groups around it change nothing. -/
theorem run_deeper (h : run ⟨some d, n, e⟩ a = some ⟨some d', n', e'⟩) (m : Nat) :
    run ⟨some (d + m), n, e⟩ a = some ⟨some (d' + m), n', e'⟩ := by
  induction a generalizing d n e with
  | nil =>
    cases h
    rfl
  | cons c a ih =>
    obtain ⟨⟨k, n₁, e₁⟩, hstep, h⟩ := Option.bind_eq_some_iff.1 h
    obtain ⟨d₁, rfl, hrun⟩ := step_deeper hstep m
    rw [run_cons, hrun]
    exact ih h

end Progress

/-- No group notices the text where its first character counts. -/
def Level (t : Text) : Prop := ∀ p : Progress, p.inert = false → run p t = some p

namespace Level

variable {a b : Text}

theorem append (ha : Level a) (hb : Level b) : Level (a ++ b) := fun p hp => by
  rw [run_append, ha p hp]
  exact hb p hp

/-- Characters that count nowhere. -/
theorem of_quiet {t : Text} (h : ∀ c ∈ t, c ∉ ['\\', '{', '}', '[', ']']) : Level t := by
  intro p hp
  induction t with
  | nil => rfl
  | cons c t ih =>
    obtain ⟨hc, ht⟩ := List.forall_mem_cons.1 h
    have hstep : step p c = some p := by
      simp only [List.mem_cons, List.not_mem_nil, or_false, not_or] at hc
      unfold step
      grind
    rw [run_cons, hstep]
    exact ih ht

theorem braces (h : ∀ n, depth (n, false) a = some (n, false)) : Level ('{' :: (a ++ ['}'])) := by
  rintro ⟨k, n, e⟩ hp
  obtain rfl : e = false := hp
  have hopen : step ⟨k, n, false⟩ '{' = some ⟨k, n + 1, false⟩ := rfl
  have hclose : step ⟨k, n + 1, false⟩ '}' = some ⟨k, n, false⟩ := by simp [step]
  rw [run_cons, hopen, Option.bind_some, run_append, run_of_depth (h n), Option.bind_some, run_cons, hclose]
  rfl

/-- A bracket group whose braces are paired. -/
theorem brackets (hrun : run (start .bracket) a = some (start .bracket)) (ha : Paired a) : Level ('[' :: (a ++ [']'])) := by
  have hdepth (n : Nat) : depth (n, false) a = some (n, false) := by
    obtain ⟨⟨_, e⟩, hd, rfl⟩ := Option.map_eq_some_iff.1 ha
    have hbit : e = false := (depth_bit hd).trans (inert_of_run hrun).symm
    rw [hbit] at hd
    simpa using depth_add hd n
  rintro ⟨k, n, e⟩ hp
  obtain rfl : e = false := hp
  rw [run_cons]
  match k, n with
  | none, n =>
    have hstep (c : Char) (hc : c ∈ ['[', ']']) : step ⟨none, n, false⟩ c = some ⟨none, n, false⟩ := by
      rcases List.mem_pair.1 hc with rfl | rfl <;> simp [step]
    rw [hstep _ (by simp), Option.bind_some, run_append, run_brace (hdepth n), Option.bind_some, run_cons, hstep _ (by simp)]
    rfl
  | some d, n + 1 =>
    have hstep (c : Char) (hc : c ∈ ['[', ']']) : step ⟨some d, n + 1, false⟩ c = some ⟨some d, n + 1, false⟩ := by
      rcases List.mem_pair.1 hc with rfl | rfl <;> simp [step]
    rw [hstep _ (by simp), Option.bind_some, run_append, run_of_depth (hdepth n), Option.bind_some, run_cons,
      hstep _ (by simp)]
    rfl
  | some d, 0 =>
    have hopen : step ⟨some d, 0, false⟩ '[' = some ⟨some (d + 1), 0, false⟩ := rfl
    have hclose : step ⟨some (d + 1), 0, false⟩ ']' = some ⟨some d, 0, false⟩ := by simp [step]
    have hinner : run ⟨some (d + 1), 0, false⟩ a = some ⟨some (d + 1), 0, false⟩ := by
      simpa using run_deeper hrun (d + 1)
    rw [hopen, Option.bind_some, run_append, hinner, Option.bind_some, run_cons, hclose]
    rfl

end Level

/-- A command that is passed over up to its last character. -/
theorem Passed.command {name front : Text} (hname : name ≠ []) (hquiet : ∀ c ∈ name, c ∉ ['\\', '{', '}', '[', ']'])
    (hfront : Level front) : Passed ('\\' :: (name ++ front)) := by
  intro p
  have hlevel : Level (name ++ front) := (Level.of_quiet hquiet).append hfront
  cases hp : p.inert with
  | true =>
    have hstep : step p '\\' = some { p with inert := false } := by simp [step, hp]
    rw [run_cons, hstep]
    exact hlevel _ rfl
  | false =>
    have hstep : step p '\\' = some { p with inert := true } := by simp [step, hp]
    cases name with
    | nil => exact absurd rfl hname
    | cons c name =>
      have hnext : step { p with inert := true } c = some { p with inert := false } := rfl
      rw [run_cons, hstep, Option.bind_some, List.cons_append, run_cons, hnext]
      exact ((Level.of_quiet fun d hd => hquiet d (List.mem_cons_of_mem c hd)).append hfront) _ rfl

end Group

end Galley
