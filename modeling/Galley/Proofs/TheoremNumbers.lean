import Galley.Proofs.FreeText
import Galley.Proofs.InlineRuns
import Galley.Proofs.Nesting
import Galley.Proofs.Substitution
/-!
# Theorems are numbered in the order in which they end

What an environment is shown as depends on its name, its body and its number alone (`Stateless`). The number is the last one
of its kind and one more (`run_takeNumber`), so over a text whose environments are properly nested the numbers of each kind
count its environments in the order in which they end (`run_store`, `numbers_numberedFrom`).
-/

namespace Galley

open Block.Token (ofNumber)
open Lists (ownLine)

/-! ## Work that does not depend on the state -/

namespace Bench

variable {α β : Type}

/-- What the work comes to does not depend on the state. -/
def Stateless (work : Bench α) : Prop := ∃ r, Comes work r

namespace Stateless

variable {work : Bench α}

theorem pure (a : α) : Stateless (Pure.pure a : Bench α) := ⟨_, .pure a⟩

theorem bind {next : α → Bench β} (h : Stateless work) (hn : ∀ a, Stateless (next a)) : Stateless (work >>= next) := by
  obtain ⟨r, hr⟩ := h
  choose f hf using hn
  exact ⟨_, hr.bind hf⟩

theorem mapM {f : β → Bench α} {l : List β} (h : ∀ x, Stateless (f x)) : Stateless (l.mapM f) := by
  induction l with
  | nil => exact .pure []
  | cons x l ih =>
    rw [List.mapM_cons]
    exact (h x).bind fun a => ih.bind fun as => .pure (a :: as)

theorem inline (kit : Kit) (s : Text) : Stateless (Bench.inline kit s) := ⟨_, .inline kit s⟩

theorem paragraphs (kit : Kit) (s : Text) : Stateless (Bench.paragraphs kit s) := by
  refine (mapM fun chunk => ?_).bind fun _ => .pure _
  split
  · exact .pure _
  · exact (inline kit chunk).bind fun _ => .pure _

/-- Such work that ends without a fault comes to a result. -/
theorem comes_ok (h : Stateless work) (hends : Ends work fun _ => True) : ∃ a, Comes work (.ok a) := by
  obtain ⟨r, hr⟩ := h
  obtain ⟨a, b', hrun, -⟩ := hends {}
  obtain ⟨ns, hns⟩ := hr {}
  obtain ⟨rfl, -⟩ := Prod.mk.inj (hrun.symm.trans hns)
  exact ⟨a, hr⟩

end Stateless

end Bench

/-! ## Fragments with a number -/

namespace Extract.Theorem

open Bench (Comes Ends Stateless)

/-- Environments of the name are shown as theorems: it is no name of a quote, an alignment or a proof. -/
def isTheorem (name : Text) : Bool := !quoteNames.contains name && (alignments.lookup name).isNone && name ≠ "proof"

/-- Environments of the name have numbers. -/
def isNumbered (name : Text) : Bool := isTheorem name && !name.endsWith "*"

/-- A theorem with the number that is given. -/
def headed (kit : Kit) (kinds : List (Text × Text)) (name body : Text) (number : Option Nat) : Bench Text := do
  let (title, body) := titleAhead body
  let base := Text.dropWhileRight (· = '*') name
  let label := Html.escapeQuoted ((kinds.lookup base).getD (Text.capitalize base))
  let label := match number with
    | none => label
    | some n => label ++ " " ++ Text.ofNat n
  let suffix ← match title with
    | some (c :: t) => do pure (" (" ++ (← Bench.inline kit (c :: t)) ++ ")")
    | _ => pure []
  let head := "<strong class=\"theorem-head\">" ++ label ++ "</strong>" ++ suffix ++ ". "
  let body ← Bench.paragraphs kit body
  pure ("<div class=\"latex-theorem latex-" ++ className base ++ "\">" ++ withHead head body ++ "</div>")

/-- An environment with the number that is given to it, if it is shown as a theorem. -/
def shown (kit : Kit) (kinds : List (Text × Text)) (name body : Text) (number : Option Nat) : Bench Text :=
  if isTheorem name then headed kit kinds name body number else fragment kit kinds name body

/-- Takes the number of an environment. -/
def takeNumber (name : Text) : Bench (Option Nat) :=
  if isNumbered name then do pure (some (← Bench.nextTheorem name)) else pure none

theorem dropWhileRight_star {name : Text} (h : name.endsWith "*" = false) : Text.dropWhileRight (· = '*') name = name := by
  rw [Text.dropWhileRight]
  rw [Text.endsWith, List.isSuffixOf] at h
  cases hr : name.reverse with
  | nil => rw [List.reverse_eq_nil_iff.1 hr]; rfl
  | cons c r =>
    have hc : decide (c = '*') = false := by
      refine decide_eq_false ?_
      rintro rfl
      rw [hr] at h
      cases h
    rw [List.dropWhile_cons_of_neg (by rw [hc]; exact Bool.false_ne_true), ← hr, List.reverse_reverse]

theorem fragment_of_isTheorem (kit : Kit) (kinds : List (Text × Text)) {name : Text} (h : isTheorem name = true) (body : Text) :
    fragment kit kinds name body = theoremFragment kit kinds name body := by
  simp only [isTheorem, Bool.and_eq_true, Bool.not_eq_true', decide_eq_true_eq, Option.isNone_iff_eq_none] at h
  obtain ⟨⟨hquote, halign⟩, hproof⟩ := h
  rw [fragment, hquote, if_neg Bool.false_ne_true, halign]
  dsimp only
  rw [if_neg hproof]

/-- An environment takes its number and is shown with it. -/
theorem fragment_eq (kit : Kit) (kinds : List (Text × Text)) (name body : Text) :
    fragment kit kinds name body = takeNumber name >>= shown kit kinds name body := by
  unfold shown takeNumber isNumbered
  cases htheorem : isTheorem name with
  | false => simp
  | true =>
    rw [fragment_of_isTheorem kit kinds htheorem]
    unfold theoremFragment headed
    cases hstar : name.endsWith "*" with
    | true => rfl
    | false =>
      rw [dropWhileRight_star hstar]
      simp only [Bool.not_false, Bool.and_self, if_true, Bool.false_eq_true, if_false]
      exact (bind_assoc (Bench.nextTheorem name) _ _).symm

theorem stateless_headed (kit : Kit) (kinds : List (Text × Text)) (name body : Text) (number : Option Nat) :
    Stateless (headed kit kinds name body number) := by
  unfold headed
  dsimp only
  split
  · exact .bind (.inline kit _) fun _ => .bind (.pure _) fun _ => .bind (.paragraphs kit _) fun _ => .pure _
  · exact .bind (.pure _) fun _ => .bind (.paragraphs kit _) fun _ => .pure _

theorem stateless_proofFragment (kit : Kit) (body : Text) : Stateless (proofFragment kit body) := by
  unfold proofFragment
  dsimp only
  split
  · exact .bind (.inline kit _) fun _ => .bind (.paragraphs kit _) fun _ => .pure _
  · exact .bind (.pure _) fun _ => .bind (.paragraphs kit _) fun _ => .pure _

theorem stateless_shown (kit : Kit) (kinds : List (Text × Text)) (name body : Text) (number : Option Nat) :
    Stateless (shown kit kinds name body number) := by
  unfold shown
  split
  · exact stateless_headed kit kinds name body number
  · rename_i htheorem
    unfold fragment
    split
    · exact (Stateless.paragraphs kit body).bind fun _ => .pure _
    · split
      · exact (Stateless.paragraphs kit body).bind fun _ => .pure _
      · split
        · exact stateless_proofFragment kit body
        · rename_i hquote _ halign hproof
          refine absurd ?_ htheorem
          rw [isTheorem, eq_false_of_ne_true hquote, halign]
          exact decide_eq_true hproof

/-! ## Numbers -/

/-- The number of an environment behind those that have ended before. -/
def number (before : List Text) (name : Text) : Option Nat := if isNumbered name then some (before.count name + 1) else none

/-- Environments with their numbers, behind those that have ended before. -/
def numberedFrom : (before : List Text) → List (Text × Text) → List ((Text × Text) × Option Nat)
  | _, [] => []
  | before, e :: es => (e, number before e.1) :: numberedFrom (before ++ [e.1]) es

theorem numberedFrom_append (before : List Text) (es es' : List (Text × Text)) :
    numberedFrom before (es ++ es') = numberedFrom before es ++ numberedFrom (before ++ es.map (·.1)) es' := by
  induction es generalizing before with
  | nil => simp [numberedFrom]
  | cons e es ih => simp [numberedFrom, ih]

theorem length_numberedFrom (before : List Text) (es : List (Text × Text)) : (numberedFrom before es).length = es.length := by
  induction es generalizing before with
  | nil => rfl
  | cons e es ih => rw [numberedFrom, List.length_cons, List.length_cons, ih]

/-- The numbers of a kind. -/
def numbersOf (name : Text) (es : List ((Text × Text) × Option Nat)) : List (Option Nat) :=
  (es.filter (·.1.1 = name)).map (·.2)

/-- The numbers of a kind go on from those that have ended before. -/
theorem numbersOf_numberedFrom (name : Text) (before : List Text) (es : List (Text × Text)) :
    numbersOf name (numberedFrom before es) =
      if isNumbered name then (List.range' (before.count name + 1) (es.countP (·.1 = name))).map some
      else List.replicate (es.countP (·.1 = name)) none := by
  induction es generalizing before with
  | nil => simp [numbersOf, numberedFrom]
  | cons e es ih =>
    have hmore := ih (before ++ [e.1])
    rw [List.count_append] at hmore
    rw [numbersOf, numberedFrom, List.filter_cons, List.countP_cons]
    by_cases he : e.1 = name
    · rw [if_pos (decide_eq_true he), if_pos (decide_eq_true he), List.map_cons, ← numbersOf, hmore, number, he,
        List.count_singleton_self]
      split
      · rw [List.range'_succ, List.map_cons]
      · rw [List.replicate_succ]
    · have hne : ¬ decide (e.1 = name) = true := by simpa using he
      have hcount : List.count name [e.1] = 0 := by rw [List.count_singleton, if_neg (by simpa using he)]
      rw [if_neg hne, if_neg hne, ← numbersOf, hmore, hcount]
      rfl

/-- The last number of each kind is how many of its environments have ended. -/
def Counted (before : List Text) (b : BenchState) : Prop :=
  ∀ name, isNumbered name = true → (b.theoremNumbers.lookup name).getD 0 = before.count name

theorem lookup_filter_ne {β : Type} {l : List (Text × β)} {name other : Text} (h : other ≠ name) :
    (l.filter (·.1 ≠ name)).lookup other = l.lookup other := by
  induction l with
  | nil => rfl
  | cons p l ih =>
    obtain ⟨k, v⟩ := p
    by_cases hk : k = name
    · have hbeq : (other == k) = false := by simpa [hk] using h
      rw [List.filter_cons_of_neg (by simpa using hk), ih, List.lookup_cons, hbeq]
    · rw [List.filter_cons_of_pos (by simpa using hk), List.lookup_cons, List.lookup_cons, ih]

theorem run_takeNumber {before : List Text} {b : BenchState} (h : Counted before b) (name : Text) :
    ∃ counts, (takeNumber name).run.run b = (.ok (number before name), { b with theoremNumbers := counts }) ∧
      Counted (before ++ [name]) { b with theoremNumbers := counts } := by
  unfold takeNumber number
  cases hname : isNumbered name with
  | false =>
    refine ⟨b.theoremNumbers, rfl, fun other hother => ?_⟩
    have hne : name ≠ other := by
      rintro rfl
      rw [hname] at hother
      cases hother
    rw [List.count_append, List.count_singleton, if_neg (by simpa using hne)]
    exact h other hother
  | true =>
    refine ⟨(name, (b.theoremNumbers.lookup name).getD 0 + 1) :: b.theoremNumbers.filter (·.1 ≠ name), ?_, fun other hother => ?_⟩
    · rw [if_pos rfl, if_pos rfl, ← h name hname]
      rfl
    · by_cases he : other = name
      · subst he
        rw [List.lookup_cons_self, Option.getD_some, h other hname, List.count_append, List.count_singleton_self]
      · have hbeq : (other == name) = false := by simpa using he
        rw [List.lookup_cons, hbeq]
        dsimp only
        rw [lookup_filter_ne he, h other hother, List.count_append, List.count_singleton, if_neg (by simpa using Ne.symm he),
          Nat.add_zero]

/-! ## Storing a tree -/

/-- From `b` to `b'` the environments are shown, each with its number behind those that have ended before, and stored. -/
structure Stored (kit : Kit) (kinds : List (Text × Text)) (before : List Text) (es : List (Text × Text)) (htmls : List Text)
    (b b' : BenchState) : Prop where
  shown : List.Forall₂ (fun e html => Comes (shown kit kinds e.1.1 e.1.2 e.2) (.ok html)) (numberedFrom before es) htmls
  table : b'.table = htmls.foldl (fun t html => (t.register .env html).2) b.table
  extracted : b'.extracted = b.extracted + es.length
  counted : Counted (before ++ es.map (·.1)) b'

namespace Stored

variable {kit : Kit} {kinds : List (Text × Text)} {before : List Text} {es es' : List (Text × Text)} {htmls htmls' : List Text}
  {b b' b'' : BenchState}

theorem nil (h : Counted before b) : Stored kit kinds before [] [] b b :=
  ⟨.nil, rfl, rfl, by rwa [List.map_nil, List.append_nil]⟩

theorem append (h : Stored kit kinds before es htmls b b') (h' : Stored kit kinds (before ++ es.map (·.1)) es' htmls' b' b'') :
    Stored kit kinds before (es ++ es') (htmls ++ htmls') b b'' where
  shown := by
    rw [numberedFrom_append]
    exact List.rel_append h.shown h'.shown
  table := by rw [h'.table, h.table, List.foldl_append]
  extracted := by rw [h'.extracted, h.extracted, List.length_append, Nat.add_assoc]
  counted := by
    have := h'.counted
    rwa [List.append_assoc, ← List.map_append] at this

theorem issued (h : Stored kit kinds before es htmls b b') : b'.table.issued = b.table.issued + es.length := by
  rw [h.table, Block.Table.issued_foldl_register, ← h.shown.length_eq, length_numberedFrom]

end Stored

/-- An environment is stored with its number. -/
theorem run_stored {kit : Kit} {kinds : List (Text × Text)} {before : List Text} {b : BenchState} (h : Counted before b)
    {name body html : Text} (hshown : Comes (shown kit kinds name body (number before name)) (.ok html)) :
    ∃ b', (fragment kit kinds name body >>= Bench.register .env).run.run b =
        (.ok (ownLine (ofNumber .env (b.table.issued + 1))), b') ∧
      Stored kit kinds before [(name, body)] [html] b b' := by
  obtain ⟨counts, hnumber, hcounted⟩ := run_takeNumber h name
  obtain ⟨ns, hhtml⟩ := hshown { b with theoremNumbers := counts }
  rw [fragment_eq, bind_assoc, Bench.run_bind_of_ok hnumber, Bench.run_bind_of_ok hhtml]
  exact ⟨_, rfl, .cons hshown .nil, rfl, rfl, hcounted⟩

theorem run_store {kit : Kit} {kinds : List (Text × Text)} {names : List Text} (d : Nest names) {before : List Text}
    {b : BenchState} (h : Counted before b)
    (hshown : ∀ e ∈ d.ended b.table.issued, ∀ number, ∃ html, Comes (shown kit kinds e.1 e.2 number) (.ok html)) :
    ∃ htmls b', (d.store (fragment kit kinds)).run.run b = (.ok (d.placed b.table.issued), b') ∧
      Stored kit kinds before (d.ended b.table.issued) htmls b b' := by
  induction d generalizing before b with
  | text t => exact ⟨[], b, rfl, .nil h⟩
  | environment t name gap inner gap' rest ihinner ihrest =>
    rw [Nest.ended] at hshown
    obtain ⟨hinner, hleaf⟩ := List.forall_mem_append.1 hshown
    obtain ⟨hleaf, hrest⟩ := List.forall_mem_cons.1 hleaf
    obtain ⟨htmls, b₁, hrun₁, h₁⟩ := ihinner h hinner
    obtain ⟨html, hhtml⟩ := hleaf (number (before ++ (inner.ended b.table.issued).map (·.1)) name.1)
    obtain ⟨b₂, hrun₂, h₂⟩ := run_stored h₁.counted hhtml
    have hissued : b₂.table.issued = b.table.issued + inner.count + 1 := by
      rw [h₂.issued, h₁.issued, Nest.length_ended]
      rfl
    rw [← hissued] at hrest
    obtain ⟨htmls', b₃, hrun₃, h₃⟩ := ihrest h₂.counted hrest
    refine ⟨htmls ++ ([html] ++ htmls'), b₃, ?_, ?_⟩
    · rw [Nest.store, Bench.run_bind_of_ok hrun₁, ← bind_assoc, Bench.run_bind_of_ok hrun₂, Bench.run_bind_of_ok hrun₃]
      rw [hissued, h₁.issued, Nest.length_ended]
      rfl
    · have hall := h₁.append (h₂.append h₃)
      rw [hissued] at hall
      exact hall

/-! ## Names of environments -/

theorem forall_namesOf {P : Text → Prop} {kinds : List (Text × Text)}
    (hfixed : ∀ n ∈ quoteNames ++ alignments.map (·.1) ++ ["proof".toList], P n)
    (hkinds : ∀ k ∈ kinds, P k.1 ∧ P (k.1 ++ ['*'])) : ∀ n ∈ namesOf kinds, P n := by
  intro n hn
  rcases List.mem_append.1 hn with hn | hn
  · exact hfixed n hn
  · obtain ⟨k, hk, hn⟩ := List.mem_flatMap.1 hn
    rcases List.mem_cons.1 hn with rfl | hn
    · exact (hkinds k hk).1
    · rw [List.mem_singleton.1 hn]
      exact (hkinds k hk).2

theorem brace_not_mem_nonemptyBraced? {s inside rest : Text} (h : nonemptyBraced? s = some (inside, rest)) : '\x7d' ∉ inside := by
  simp only [nonemptyBraced?, Option.bind_eq_bind, Option.bind_eq_some_iff] at h
  obtain ⟨s₁, -, ⟨i, r⟩, hclosed, h⟩ := h
  rw [Text.closedBy] at hclosed
  split at h
  · cases h
  · cases h
    split at hclosed
    · cases hclosed
      intro hm
      simpa using List.all_eq_true.1 List.all_takeWhile _ hm
    · cases hclosed

/-- A declared name has no closing brace. -/
theorem brace_not_mem_declaration {before : Option Char} {s rest : Text} {d : Text × Text}
    (h : declaration before s = some (d, rest)) :
    '\x7d' ∉ d.1 := by
  simp only [declaration, Option.bind_eq_bind, Option.bind_eq_some_iff] at h
  obtain ⟨s₁, -, ⟨name, s₂⟩, hname, ⟨title, s₃⟩, -, h⟩ := h
  cases h
  exact fun hm => brace_not_mem_nonemptyBraced? hname ((Text.strip_part name).subset hm)

theorem forall_declare {P : Text → Prop} {kinds : List (Text × Text)} {d : Text × Text} (h : ∀ k ∈ kinds, P k.1) (hd : P d.1) :
    ∀ k ∈ declare kinds d, P k.1 := by
  rw [declare]
  split
  · intro k hk
    obtain ⟨k', hk', rfl⟩ := List.mem_map.1 hk
    split
    · exact hd
    · exact h k' hk'
  · exact List.forall_mem_append.2 ⟨h, List.forall_mem_singleton.2 hd⟩

/-- No kind has a closing brace in its name. -/
theorem brace_not_mem_kindsOf (s : Text) : ∀ k ∈ kindsOf s, '\x7d' ∉ k.1 := by
  have main (ds : List (Text × Text)) (hds : ∀ d ∈ ds, '\x7d' ∉ d.1) (kinds : List (Text × Text))
      (h : ∀ k ∈ kinds, '\x7d' ∉ k.1) :
      ∀ k ∈ ds.foldl declare kinds, '\x7d' ∉ k.1 := by
    induction ds generalizing kinds with
    | nil => exact h
    | cons d ds ih =>
      obtain ⟨hd, hds⟩ := List.forall_mem_cons.1 hds
      exact ih hds _ (forall_declare (P := fun n => '\x7d' ∉ n) h hd)
  refine main _ (fun d hd => ?_) _ (by decide)
  obtain ⟨before, t, rest, -, hr⟩ := Text.mem_readAll hd
  exact brace_not_mem_declaration hr

theorem names_namesOf {s : Text} (hslash : ∀ k ∈ kindsOf s, '\\' ∉ k.1)
    (htoken : ∀ k ∈ kindsOf s, ∀ i, ¬ ownLine (ofNumber .env i) <:+: k.1) : Marker.Names (namesOf (kindsOf s)) where
  slash := forall_namesOf (by decide) fun k hk => ⟨hslash k hk, by simpa using hslash k hk⟩
  brace := forall_namesOf (by decide) fun k hk => ⟨brace_not_mem_kindsOf s k hk, by simpa using brace_not_mem_kindsOf s k hk⟩
  token := by
    refine forall_namesOf (fun n hn i h => ?_) fun k hk => ⟨htoken k hk, fun i h => ?_⟩
    · have hcapital : ∀ n ∈ quoteNames ++ alignments.map (·.1) ++ ["proof".toList], 'L' ∉ n := by decide
      exact hcapital n hn (h.subset (Marker.mem_ownLine i))
    · rcases infix_append_cons (Marker.not_mem_ownLine (by decide) (by decide) i) h with h | h
      · exact htoken k hk i h
      · exact absurd (h.subset (Marker.mem_ownLine i)) List.not_mem_nil

/-! ## Text without marks -/

theorem ends_shown {kit : Kit} {P : Text → Prop} (h : Formats kit P) {body : Text} (hbody : P body) (kinds : List (Text × Text))
    (name : Text) (number : Option Nat) : Ends (shown kit kinds name body number) fun _ => True := by
  obtain ⟨htitle, hrest⟩ := @titleAhead_part body
  unfold shown headed
  split
  · generalize titleAhead body = p at htitle hrest
    obtain ⟨title, rest⟩ := p
    exact ends_theoremBody _ _ (fun t ht => h.inline (h.part hbody (htitle t ht))) (h.paragraphs (h.part hbody hrest.isInfix))
  · exact h.theoremLike hbody kinds name

/-- Where neither the text nor what the converter returns has a mark, every environment is shown. -/
theorem exists_comes_shown {kit : Kit} (hkit : kit.Unmarked) {names : List Text} {d : Nest names}
    (h : Inline.Stash.opening ∉ d.source) (kinds : List (Text × Text)) (issued : Nat) :
    ∀ e ∈ d.ended issued, ∀ number, ∃ html, Comes (shown kit kinds e.1 e.2 number) (.ok html) := by
  intro e he number
  have hbody : Inline.Stash.opening ∉ e.2 := d.not_mem_ended (by decide) (by decide) h issued e he
  exact (stateless_shown kit kinds e.1 e.2 number).comes_ok (ends_shown (unmarked_formats hkit) hbody kinds e.1 number)

/-! ## The whole text -/

theorem namesOf_ne_nil (kinds : List (Text × Text)) : namesOf kinds ≠ [] := List.cons_ne_nil _ _

theorem run_extract {kit : Kit} {s : Text} (hnames : Marker.Names (namesOf (kindsOf s))) (d : Nest (namesOf (kindsOf s)))
    (hsource : d.source = s) (hcap : d.count ≤ kit.settings.environmentIterationCap) {b : BenchState} (hb : b.theoremNumbers = [])
    (hshown : ∀ e ∈ d.ended b.table.issued, ∀ number, ∃ html, Comes (shown kit (kindsOf s) e.1 e.2 number) (.ok html)) :
    ∃ htmls b', (extract kit s).run.run b = (.ok (d.placed b.table.issued), b') ∧
      Stored kit (kindsOf s) [] (d.ended b.table.issued) htmls b b' := by
  have hcounted : Counted [] b := fun name _ => by rw [hb]; rfl
  obtain ⟨htmls, b₁, hrun, hstored⟩ := run_store d hcounted hshown
  have hrounds := Nest.rounds_store hnames (fragment kit (kindsOf s)) "environment" _ (namesOf_ne_nil _) d (Int.ofNat_le.2 hcap)
  rw [hsource] at hrounds
  have hextract : extract kit s = _ := hrounds
  rw [hextract, Bench.run_bind_of_ok hrun]
  split
  · exact ⟨htmls, _, rfl, hstored.shown, hstored.table, hstored.extracted, hstored.counted⟩
  · exact ⟨htmls, _, rfl, hstored⟩

/-- Where no kind has a backslash in its name or a token on lines of its own, and the environments of a text are properly
    nested and no more than the limit, all of them are rendered, as long as each can be formatted, as each can where there
    are no marks. Each is stored with its number in the order in which they end, and no marker is left. The environments of
    a kind have the numbers from one on in this order; quotes, alignments, proofs and starred theorems have none. -/
theorem extract_nested (kit : Kit) (s : Text) (hslash : ∀ k ∈ kindsOf s, '\\' ∉ k.1)
    (htoken : ∀ k ∈ kindsOf s, ∀ i, ¬ ownLine (ofNumber .env i) <:+: k.1) (d : Nest (namesOf (kindsOf s)))
    (hsource : d.source = s) (hcap : d.count ≤ kit.settings.environmentIterationCap) :
    (∀ b : BenchState, b.theoremNumbers = [] →
      (∀ e ∈ d.ended b.table.issued, ∀ number, ∃ html, Comes (shown kit (kindsOf s) e.1 e.2 number) (.ok html)) →
      ∃ htmls b', (extract kit s).run.run b = (.ok (d.placed b.table.issued), b') ∧
        List.Forall₂ (fun e html => Comes (shown kit (kindsOf s) e.1.1 e.1.2 e.2) (.ok html))
          (numberedFrom [] (d.ended b.table.issued)) htmls ∧
        b'.table = htmls.foldl (fun t html => (t.register .env html).2) b.table ∧ b'.extracted = b.extracted + d.count) ∧
    (Inline.Stash.opening ∉ s → kit.Unmarked → ∀ issued, ∀ e ∈ d.ended issued, ∀ number,
      ∃ html, Comes (shown kit (kindsOf s) e.1 e.2 number) (.ok html)) ∧
    ∀ issued, Marker.Bare (namesOf (kindsOf s)) (d.placed issued) ∧
      ∀ name, numbersOf name (numberedFrom [] (d.ended issued)) =
        if isNumbered name then (List.range' 1 ((d.ended issued).countP (·.1 = name))).map some
        else List.replicate ((d.ended issued).countP (·.1 = name)) none := by
  have hnames := names_namesOf hslash htoken
  refine ⟨fun b hb hshown => ?_, fun hs hkit => exists_comes_shown hkit (by rw [hsource]; exact hs) (kindsOf s),
    fun issued => ⟨Nest.bare_placed hnames d issued, fun name => numbersOf_numberedFrom name [] _⟩⟩
  obtain ⟨htmls, b', hrun, hstored⟩ := run_extract hnames d hsource hcap hb hshown
  exact ⟨htmls, b', hrun, hstored.shown, hstored.table, by rw [hstored.extracted, Nest.length_ended]⟩

/-- A declared kind with an environment in another, and a starred one. -/
def conjectures : Text :=
  "\\newtheorem\x7bconj\x7d\x7bConjecture\x7d\\begin\x7bconj\x7da\\begin\x7bconj\x7db\\end\x7bconj\x7d\\end\x7bconj\x7d" ++
    "\\begin\x7bconj*\x7dc\\end\x7bconj*\x7d"

def conjecturesNest : Nest (namesOf (kindsOf conjectures)) :=
  .environment ⟨"\\newtheorem\x7bconj\x7d\x7bConjecture\x7d", by decide⟩ ⟨"conj", by decide⟩ ⟨[], by simp⟩
    (.environment ⟨"a", Marker.bare_of_not_mem (by decide)⟩ ⟨"conj", by decide⟩ ⟨[], by simp⟩
      (.text ⟨"b", Marker.bare_of_not_mem (by decide)⟩) ⟨[], by simp⟩ (.text ⟨[], Marker.bare_of_not_mem (by decide)⟩))
    ⟨[], by simp⟩
    (.environment ⟨[], Marker.bare_of_not_mem (by decide)⟩ ⟨"conj*", by decide⟩ ⟨[], by simp⟩
      (.text ⟨"c", Marker.bare_of_not_mem (by decide)⟩) ⟨[], by simp⟩ (.text ⟨[], Marker.bare_of_not_mem (by decide)⟩))

theorem source_conjecturesNest : conjecturesNest.source = conjectures := by rfl

theorem plain_formats (kit : Kit) : Formats kit (Within isPlainChar) where
  part h ht := h.part ht
  inline h := fun b => ⟨_, b, Lists.Still.inline h kit b, trivial⟩

theorem exists_comes_shown_of_plain (kit : Kit) (kinds : List (Text × Text)) {es : List (Text × Text)}
    (h : ∀ e ∈ es, Within isPlainChar e.2) : ∀ e ∈ es, ∀ number, ∃ html, Comes (shown kit kinds e.1 e.2 number) (.ok html) :=
  fun e he number => (stateless_shown kit kinds e.1 e.2 number).comes_ok
    (ends_shown (plain_formats kit) (h e he) kinds e.1 number)

theorem extract_nested_conjectures :
    ∃ htmls b', (extract {} conjectures).run.run {} =
        (.ok "\\newtheorem\x7bconj\x7d\x7bConjecture\x7d\n\nLATEXPREVIEWENV000002\n\n\n\nLATEXPREVIEWENV000003\n\n".toList, b') ∧
      List.Forall₂ (fun e html => Comes (shown {} (kindsOf conjectures) e.1.1 e.1.2 e.2) (.ok html))
        [(("conj".toList, "b".toList), some 1), (("conj".toList, "a\n\nLATEXPREVIEWENV000001\n\n".toList), some 2),
          (("conj*".toList, "c".toList), none)] htmls ∧
      b'.extracted = 3 := by
  have hcapital : ∀ k ∈ kindsOf conjectures, 'L' ∉ k.1 := by decide
  obtain ⟨hrun, -, -⟩ := extract_nested {} conjectures (by decide)
    (fun k hk i h => hcapital k hk (h.subset (Marker.mem_ownLine i))) conjecturesNest source_conjecturesNest (by decide)
  have hended : conjecturesNest.ended 0 = [("conj".toList, "b".toList), ("conj".toList, "a\n\nLATEXPREVIEWENV000001\n\n".toList),
      ("conj*".toList, "c".toList)] := by decide
  have hplain : ∀ e ∈ conjecturesNest.ended 0, Within isPlainChar e.2 := by
    rw [hended]
    decide
  obtain ⟨htmls, b', hresult, hshown, -, hcount⟩ := hrun {} rfl (exists_comes_shown_of_plain {} _ hplain)
  have hplaced : conjecturesNest.placed 0 =
      "\\newtheorem\x7bconj\x7d\x7bConjecture\x7d\n\nLATEXPREVIEWENV000002\n\n\n\nLATEXPREVIEWENV000003\n\n".toList := by decide
  refine ⟨htmls, b', ?_, ?_, hcount⟩
  · rw [hresult]
    exact congrArg (fun t => (Except.ok t, b')) hplaced
  · have hnumbered : numberedFrom [] (conjecturesNest.ended 0) = [(("conj".toList, "b".toList), some 1),
        (("conj".toList, "a\n\nLATEXPREVIEWENV000001\n\n".toList), some 2), (("conj*".toList, "c".toList), none)] := by
      rw [hended]
      decide
    rw [← hnumbered]
    exact hshown

/-! ### Stars and tokens in names, and marks -/

/-- A single plain paragraph. -/
theorem still_paragraph (kit : Kit) {t : Text} (hplain : Within isPlainChar t) (hchunks : Inline.chunks t = [t])
    (htoken : Block.Token.isToken t = false) : Lists.Still (Bench.paragraphs kit t) ("<p>" ++ Inline.dress t ++ "</p>") := by
  rw [Bench.paragraphs, hchunks]
  refine (Lists.Still.mapM (g := fun c => "<p>" ++ Inline.dress c ++ "</p>") fun c hc => ?_).bind (.of_eq ?_)
  · obtain rfl := List.mem_singleton.1 hc
    rw [htoken, if_neg Bool.false_ne_true]
    exact (Lists.Still.inline hplain kit).bind (.pure _)
  · rw [List.map_singleton, List.flatten_singleton]

/-- A declared kind with a star at the end of its name. -/
def starred : Text := "\\newtheorem\x7bx*\x7d\x7bX\x7d\\begin\x7bx*\x7dA.\\end\x7bx*\x7d"

def starredNest : Nest (namesOf (kindsOf starred)) :=
  .environment ⟨"\\newtheorem\x7bx*\x7d\x7bX\x7d", by decide⟩ ⟨"x*", by decide⟩ ⟨[], by simp⟩
    (.text ⟨"A.", Marker.bare_of_not_mem (by decide)⟩) ⟨[], by simp⟩ (.text ⟨[], Marker.bare_of_not_mem (by decide)⟩)

theorem still_starred : Lists.Still (shown {} (kindsOf starred) "x*" "A." none)
    "<div class=\"latex-theorem latex-x\"><p><strong class=\"theorem-head\">X</strong>. A.</p></div>" := by
  have htitle : titleAhead "A." = (none, "A.".toList) := by decide
  rw [shown, if_pos (by decide), headed, htitle]
  exact .bind (.pure _) ((still_paragraph {} (by decide) (by decide) (by decide)).bind (.of_eq (by decide)))

/-- Its environments have no numbers. -/
theorem run_starred : ∃ b', (extract {} starred).run.run {} =
      (.ok "\\newtheorem\x7bx*\x7d\x7bX\x7d\n\nLATEXPREVIEWENV000001\n\n".toList, b') ∧
    b'.table.entries = [("LATEXPREVIEWENV000001".toList,
      "<div class=\"latex-theorem latex-x\"><p><strong class=\"theorem-head\">X</strong>. A.</p></div>".toList)] := by
  have hcapital : ∀ k ∈ kindsOf starred, 'L' ∉ k.1 := by decide
  have hnames : Marker.Names (namesOf (kindsOf starred)) :=
    names_namesOf (by decide) fun k hk i h => hcapital k hk (h.subset (Marker.mem_ownLine i))
  have hended : starredNest.ended 0 = [("x*".toList, "A.".toList)] := by decide
  have hplain : ∀ e ∈ starredNest.ended 0, Within isPlainChar e.2 := by
    rw [hended]
    decide
  have hnumbered : numberedFrom [] (starredNest.ended 0) = [(("x*".toList, "A.".toList), none)] := by
    rw [hended]
    decide
  have hplaced : starredNest.placed 0 = "\\newtheorem\x7bx*\x7d\x7bX\x7d\n\nLATEXPREVIEWENV000001\n\n".toList := by decide
  obtain ⟨htmls, b', hrun, hstored⟩ := run_extract (b := {}) hnames starredNest (by decide) (by decide) rfl
    (exists_comes_shown_of_plain {} _ hplain)
  have hshown : List.Forall₂ _ (numberedFrom [] (starredNest.ended 0)) htmls := hstored.shown
  rw [hnumbered] at hshown
  obtain ⟨html, _, hcomes, hnil, rfl⟩ := List.forall₂_cons_left_iff.1 hshown
  obtain rfl := List.forall₂_nil_left_iff.1 hnil
  obtain ⟨ns, hns⟩ := hcomes {}
  obtain rfl := Except.ok.inj (Prod.mk.inj ((still_starred {}).symm.trans hns)).1
  refine ⟨b', hrun.trans (congrArg (fun t => (Except.ok t, b')) hplaced), ?_⟩
  rw [hstored.table]
  decide

/-- An environment in a name of which its token makes that of a kind. -/
def forged : Text := "\\newtheorem\x7ba\n\nLATEXPREVIEWENV000001\n\nb\x7d\x7bT\x7d\\begin\x7ba" ++
  "\\begin\x7bquote\x7dx\\end\x7bquote\x7db\x7d"

/-- The environment in it. -/
def forgedLeaf : Environment :=
  ⟨"quote", "\\newtheorem\x7ba\n\nLATEXPREVIEWENV000001\n\nb\x7d\x7bT\x7d\\begin\x7ba", "\\begin\x7bquote\x7d", "x",
    "\\end\x7bquote\x7d", "b\x7d"⟩

def forgedNest : Nest (namesOf (kindsOf forged)) :=
  .environment ⟨forgedLeaf.before, by decide⟩ ⟨"quote", by decide⟩ ⟨[], by simp⟩
    (.text ⟨"x", Marker.bare_of_not_mem (by decide)⟩) ⟨[], by simp⟩ (.text ⟨"b\x7d", Marker.bare_of_not_mem (by decide)⟩)

theorem still_forged : Lists.Still (fragment {} (kindsOf forged) forgedLeaf.name forgedLeaf.body)
    "<blockquote class=\"latex-quote\"><p>x</p></blockquote>" := by
  rw [fragment, if_pos (by decide)]
  exact (still_paragraph {} (by decide) (by decide) (by decide)).bind (.of_eq (by decide))

/-- A begin marker comes about and is left. -/
theorem run_forged : ∃ out b', (extract {} forged).run.run {} = (.ok out, b') ∧ ¬ Marker.Bare (namesOf (kindsOf forged)) out := by
  have hfirst : Environment.leaf? (namesOf (kindsOf forged)) forged = some forgedLeaf := rfl
  have hsecond : Environment.leaf? (namesOf (kindsOf forged)) (forgedLeaf.replaceBy (ownLine (ofNumber .env 1))) = none := rfl
  have hextract : extract {} forged = Bench.rounds.go "environment" 500
      (Nest.round (namesOf (kindsOf forged)) (fragment {} (kindsOf forged))) (498 + 1 + 1) forged := rfl
  obtain ⟨b', hregister⟩ : ∃ b', (Bench.register .env "<blockquote class=\"latex-quote\"><p>x</p></blockquote>").run.run {} =
      (.ok (ownLine (ofNumber .env 1)), b') := ⟨_, rfl⟩
  refine ⟨forgedLeaf.replaceBy (ownLine (ofNumber .env 1)), b', ?_, by decide⟩
  rw [hextract, Nest.go_leaf _ _ _ hfirst, Bench.run_bind_of_ok (still_forged {}), Bench.run_bind_of_ok hregister,
    Nest.go_none _ _ _ hsecond]
  rfl

/-- An environment with a mark in it that names no piece. -/
def marked : Text := "\\begin\x7bquote\x7d" ++ Inline.Stash.mark 0 ++ "\\end\x7bquote\x7d"

/-- The environment. -/
def markedLeaf : Environment := ⟨"quote", [], "\\begin\x7bquote\x7d", Inline.Stash.mark 0, "\\end\x7bquote\x7d", []⟩

def markedNest : Nest (namesOf (kindsOf marked)) :=
  .environment ⟨[], Marker.bare_of_not_mem (by decide)⟩ ⟨"quote", by decide⟩ ⟨[], by simp⟩
    (.text ⟨Inline.Stash.mark 0, Marker.bare_of_not_mem (by decide)⟩) ⟨[], by simp⟩
    (.text ⟨[], Marker.bare_of_not_mem (by decide)⟩)

/-- It is not rendered. -/
theorem run_marked : ∃ b', (extract {} marked).run.run {} = (.error .pieceMissing, b') := by
  have hleaf : Environment.leaf? (namesOf (kindsOf marked)) marked = some markedLeaf := rfl
  have hextract : extract {} marked = Bench.rounds.go "environment" 500
      (Nest.round (namesOf (kindsOf marked)) (fragment {} (kindsOf marked))) (499 + 1) marked := rfl
  have hchunks : Inline.chunks (Inline.Stash.mark 0) = [Inline.Stash.mark 0] := by decide
  have hparagraphs : Comes (Bench.paragraphs {} (Inline.Stash.mark 0)) (.error .pieceMissing) := by
    have hinline := Comes.inline {} (Inline.Stash.mark 0)
    rw [Inline.format_mark] at hinline
    rw [Bench.paragraphs, hchunks, List.mapM_cons, if_neg (by decide)]
    exact ((hinline.stop _).stop _).stop _
  have hfragment : Comes (fragment {} (kindsOf marked) markedLeaf.name markedLeaf.body) (.error .pieceMissing) := by
    rw [fragment, if_pos (by decide)]
    exact hparagraphs.stop _
  obtain ⟨ns, hns⟩ := hfragment.stop (fun html => Bench.register .env html >>= fun token =>
    Bench.rounds.go "environment" 500 (Nest.round (namesOf (kindsOf marked)) (fragment {} (kindsOf marked))) 499
      (markedLeaf.replaceBy token)) {}
  exact ⟨_, by rw [hextract, Nest.go_leaf _ _ _ hleaf]; exact hns⟩

/-- An environment of a declared kind with a star at the end of its name is not numbered, a token in a name can make a
    begin marker, and a text with a mark of its own is not formatted. -/
theorem starred_forged_and_marked :
    (starredNest.source = starred ∧ ("x*".toList, "X".toList) ∈ kindsOf starred ∧ ∃ b', (extract {} starred).run.run {} =
        (.ok "\\newtheorem\x7bx*\x7d\x7bX\x7d\n\nLATEXPREVIEWENV000001\n\n".toList, b') ∧
      b'.table.entries = [("LATEXPREVIEWENV000001".toList,
        "<div class=\"latex-theorem latex-x\"><p><strong class=\"theorem-head\">X</strong>. A.</p></div>".toList)]) ∧
    (forgedNest.source = forged ∧ ∃ out b', (extract {} forged).run.run {} = (.ok out, b') ∧
      ¬ Marker.Bare (namesOf (kindsOf forged)) out) ∧
    markedNest.source = marked ∧ ∃ b', (extract {} marked).run.run {} = (.error .pieceMissing, b') :=
  ⟨⟨by decide, by decide, run_starred⟩, ⟨by decide, run_forged⟩, by decide, run_marked⟩

end Extract.Theorem

end Galley
