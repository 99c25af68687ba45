import Galley.Proofs.Bearing
import Galley.Proofs.CommandWords
import Galley.Proofs.Markers
import Galley.Proofs.OpenGroups
/-!
# Commands taken out whole

A metadata command is read with white space of any kind in front of its groups (`Entry`); commands are taken out with the
groups behind spaces and tabs. If nothing else stands in front of its groups, and the braces of its short form are paired, then
taking out any command takes out the whole entry or leaves it whole (`Spares`), and taking out its own takes it out.
-/

namespace Galley.Article

open Block (Seam Struck Strikable)
open Galley.Group (Passed rest?_passed rest?_of_run inside?_rest? inside?_eq)
open Galley.Group.Progress (start run rest?)

/-- A beginning without backslashes ends in front of the first one. -/
theorem exists_behind {y rest b v : Text} (h : y ++ rest = b ++ v) (hy : '\\' ∉ y) (hv : v.head? = some '\\') :
    ∃ b₁, b = y ++ b₁ ∧ rest = b₁ ++ v := by
  rcases List.append_eq_append_iff.1 h with ⟨x, rfl, rfl⟩ | ⟨x, rfl, rfl⟩
  · exact ⟨x, rfl, rfl⟩
  · cases x with
    | nil => exact ⟨[], by simp⟩
    | cons c x =>
      obtain rfl : c = '\\' := by simpa using hv
      exact absurd (by simp) hy

/-! ## Groups in a row -/

theorem afterGroup?_eq {s r : Text} (h : afterGroup? s = some r) : ∃ gap d t, s = gap ++ Delimiter.opener d :: t ∧
    (∀ c ∈ gap, isSpaceTab c = true) ∧ rest? (start d) t = some r ∧ Closes r t := by
  unfold afterGroup? at h
  split at h
  · rename_i c t ht
    obtain ⟨d, hd, h⟩ := Option.bind_eq_some_iff.1 h
    have hopener : c = d.opener := by
      unfold Delimiter.ofOpener? at hd
      split at hd
      · cases hd
        assumption
      · split at hd
        · cases hd
          assumption
        · cases hd
    refine ⟨s.takeWhile isSpaceTab, d, t, ?_, fun c hc => List.all_eq_true.1 List.all_takeWhile c hc, ?_, ?_⟩
    · rw [← hopener, ← ht, List.takeWhile_append_dropWhile]
    · rw [← inside?_rest?, h]
    · obtain ⟨⟨i, r⟩, hinside, rfl⟩ := Option.map_eq_some_iff.1 h
      exact ⟨i, d.closer, inside?_eq hinside, by cases d <;> rfl⟩
  · cases h

theorem dropGroups_cases (s : Text) :
    dropGroups s = s ∨ ∃ r, afterGroup? s = some r ∧ r.length < s.length ∧ dropGroups s = dropGroups r := by
  cases h : afterGroup? s with
  | none =>
    rw [dropGroups, h]
    exact .inl rfl
  | some r =>
    by_cases hlt : r.length < s.length
    · refine .inr ⟨r, rfl, hlt, ?_⟩
      rw [dropGroups, h]
      simp [hlt]
    · rw [dropGroups, h]
      simp [hlt]

/-- What is dropped is nothing, or ends with a closing delimiter. -/
theorem closes_dropGroups (s : Text) : dropGroups s = s ∨ Closes (dropGroups s) s := by
  induction hlen : s.length using Nat.strongRecOn generalizing s with
  | ind n ih =>
    rcases dropGroups_cases s with h | ⟨r, hr, hlt, h⟩
    · exact .inl h
    · obtain ⟨gap, d, t, rfl, -, -, hcloses⟩ := afterGroup?_eq hr
      have hs : Closes r (gap ++ d.opener :: t) :=
        hcloses.of_suffix ((List.suffix_cons _ t).trans (List.suffix_append gap _))
      rw [h]
      rcases ih r.length (by omega) r rfl with he | hc
      · rw [he]
        exact .inr hs
      · exact .inr (hc.of_suffix hs.suffix)

theorem dropGroups_suffix (s : Text) : dropGroups s <:+ s := by
  rcases closes_dropGroups s with h | h
  · rw [h]
  · exact h.suffix

/-- What is left does not begin inside the text `t`, in front of which it stood with `b`. -/
def Spares (t q b r : Text) : Prop := (∃ b', b' <:+ b ∧ r = b' ++ (t ++ q)) ∨ r <:+ q

theorem spares_dropGroups {t q : Text} (ht : Passed t) (hfirst : t.head? = some '\\') (b : Text) :
    Spares t q b (dropGroups (b ++ (t ++ q))) := by
  induction hlen : b.length using Nat.strongRecOn generalizing b with
  | ind n ih =>
    rcases dropGroups_cases (b ++ (t ++ q)) with h | ⟨r, hr, hlt, h⟩
    · rw [h]
      exact .inl ⟨b, List.suffix_refl b, rfl⟩
    · rw [h]
      obtain ⟨gap, d, u, hs, hgap, hrest, -⟩ := afterGroup?_eq hr
      -- the opening delimiter stands in `b`, since the text begins with a backslash
      obtain ⟨b₁, hb, rfl⟩ : ∃ b₁, b = gap ++ [d.opener] ++ b₁ ∧ u = b₁ ++ (t ++ q) := by
        refine exists_behind (by simpa using hs.symm) (fun hmem => ?_) (by rw [List.head?_append, hfirst]; rfl)
        rcases List.mem_append.1 hmem with hmem | hmem
        · exact absurd (hgap _ hmem) (by decide)
        · cases d <;> simp [Delimiter.opener] at hmem
      rw [List.append_assoc, List.singleton_append] at hb
      subst hb
      rcases rest?_passed ht hrest with ⟨b', hb', rfl⟩ | hq
      · have hshort : b'.length < n := by
          have := hb'.length_le
          rw [← hlen, List.length_append, List.length_cons]
          omega
        rcases ih b'.length hshort b' rfl with ⟨b'', hb'', he⟩ | hq
        · exact .inl ⟨b'', hb''.trans (hb'.trans ((List.suffix_cons _ b₁).trans (List.suffix_append gap _))), he⟩
        · exact .inr hq
      · exact .inr ((dropGroups_suffix r).trans hq)

/-! ## Entries -/

/-- The groups of a metadata command, with the white space in front of each. -/
structure Entry where
  gap : Text
  /-- The short form and the white space behind it. -/
  short? : Option (Text × Text)
  argument : Text

namespace Entry

def shortForm (e : Entry) : Text :=
  match e.short? with
  | none => []
  | some (short, gap) => '[' :: (short ++ ']' :: gap)

/-- The groups as they are written. -/
def groups (e : Entry) : Text := e.gap ++ (e.shortForm ++ '{' :: (e.argument ++ ['}']))

/-- The command as it is written. -/
def source (e : Entry) (name : Text) : Text := '\\' :: (name ++ e.groups)

/-- Each group closes where it is said to close. -/
structure Closed (e : Entry) : Prop where
  gap : ∀ c ∈ e.gap, isGap c = true
  short : ∀ x ∈ e.short?, run (start .bracket) x.1 = some (start .bracket) ∧ ∀ c ∈ x.2, isGap c = true
  argument : run (start .brace) e.argument = some (start .brace)
  level : ∀ n, depth (n, false) e.argument = some (n, false)

/-- Nothing but spaces and tabs stands in front of the groups, and the braces of the short form are paired. -/
structure Tight (e : Entry) : Prop where
  gap : ∀ c ∈ e.gap, isSpaceTab c = true
  short : ∀ x ∈ e.short?, Paired x.1 ∧ ∀ c ∈ x.2, isSpaceTab c = true

instance (e : Entry) : Decidable e.Tight :=
  decidable_of_iff (_ ∧ _) ⟨fun ⟨h₁, h₂⟩ => ⟨h₁, h₂⟩, fun ⟨h₁, h₂⟩ => ⟨h₁, h₂⟩⟩

variable {e : Entry} {name : Text}

theorem level_groups (hclosed : e.Closed) (htight : e.Tight) : Group.Level e.groups := by
  have hgap {u : Text} (hu : ∀ c ∈ u, isSpaceTab c = true) : Group.Level u :=
    .of_quiet fun c hc hmem => absurd (hu c hc) ((by decide : ∀ c ∈ ['\\', '{', '}', '[', ']'], ¬isSpaceTab c = true) c hmem)
  have hshort : Group.Level e.shortForm := by
    unfold shortForm
    split
    · exact .of_quiet (by simp)
    · rename_i short gap h
      have hlevel := (Group.Level.brackets (hclosed.short _ h).1 (htight.short _ h).1).append (hgap (htight.short _ h).2)
      simpa using hlevel
  exact (hgap htight.gap).append (hshort.append (.braces hclosed.level))

theorem passed_source (hclosed : e.Closed) (htight : e.Tight) (hname : name ≠ []) (hletters : ∀ c ∈ name, isAsciiLetter c = true) :
    Passed (e.source name) :=
  .command hname (fun c hc hmem => absurd (hletters c hc)
    ((by decide : ∀ c ∈ ['\\', '{', '}', '[', ']'], ¬isAsciiLetter c = true) c hmem)) (level_groups hclosed htight)

theorem afterGroup?_group {gap a : Text} {d : Delimiter} (hgap : ∀ c ∈ gap, isSpaceTab c = true)
    (ha : run (start d) a = some (start d)) (rest : Text) :
    afterGroup? (gap ++ d.opener :: (a ++ d.closer :: rest)) = some rest := by
  have hopener : isSpaceTab d.opener = false := by cases d <;> rfl
  have hdrop : (gap ++ d.opener :: (a ++ d.closer :: rest)).dropWhile isSpaceTab = d.opener :: (a ++ d.closer :: rest) := by
    rw [List.dropWhile_append_of_pos hgap]
    exact List.dropWhile_cons_of_neg (by simp [hopener])
  have hof : Delimiter.ofOpener? d.opener = some d := by cases d <;> rfl
  rw [afterGroup?, hdrop]
  dsimp only
  rw [hof, Option.bind_some, inside?_rest?, rest?_of_run ha]

/-- Behind spaces and tabs all groups are dropped with their command. -/
theorem dropGroups_groups (hclosed : e.Closed) (htight : e.Tight) (q : Text) : dropGroups (e.groups ++ q) <:+ q := by
  have hstep {gap a : Text} {d : Delimiter} (hgap : ∀ c ∈ gap, isSpaceTab c = true) (ha : run (start d) a = some (start d))
      (rest : Text) : dropGroups (gap ++ d.opener :: (a ++ d.closer :: rest)) = dropGroups rest := by
    have hlt : rest.length < (gap ++ d.opener :: (a ++ d.closer :: rest)).length := by
      simp
      omega
    rw [dropGroups, afterGroup?_group hgap ha]
    simp only [hlt, if_true]
  have hargument {gap : Text} (hgap : ∀ c ∈ gap, isSpaceTab c = true) :
      dropGroups (gap ++ '{' :: (e.argument ++ '}' :: q)) <:+ q := by
    have hone : dropGroups (gap ++ '{' :: (e.argument ++ '}' :: q)) = dropGroups q :=
      hstep (d := .brace) hgap hclosed.argument q
    rw [hone]
    exact dropGroups_suffix q
  cases h : e.short? with
  | none =>
    have hgroups : e.groups ++ q = e.gap ++ '{' :: (e.argument ++ '}' :: q) := by
      simp [groups, shortForm, h]
    rw [hgroups]
    exact hargument htight.gap
  | some x =>
    obtain ⟨short, gap⟩ := x
    have hgroups : e.groups ++ q = e.gap ++ '[' :: (short ++ ']' :: (gap ++ '{' :: (e.argument ++ '}' :: q))) := by
      simp [groups, shortForm, h]
    have hone : dropGroups (e.groups ++ q) = dropGroups (gap ++ '{' :: (e.argument ++ '}' :: q)) := by
      rw [hgroups]
      exact hstep (d := .bracket) htight.gap (hclosed.short _ h).1 _
    rw [hone]
    exact hargument (htight.short _ h).2

end Entry

/-! ## Taking out beside a text -/

/-- The reader takes constructs that begin with a backslash and end at a seam. -/
def Drops (read : Reader Unit) : Prop :=
  ∀ before s a rest, read before s = some (a, rest) → ∃ x, s = x ++ rest ∧ x.head? = some '\\' ∧ Seam x rest

/-- The reader takes such constructs, and of the text `t` all or nothing. -/
structure Spared (t : Text) (read : Reader Unit) : Prop where
  forward : Text.Forward read
  drops : Drops read
  outside : ∀ b q rest, read none (b ++ (t ++ q)) = some ((), rest) → Spares t q b rest
  inside : ∀ x y q, read none (t ++ q) = none → t = x ++ y → x ≠ [] → y ≠ [] → read none (y ++ q) = none

section Around

variable {t : Text} {read : Reader Unit}

theorem strikable_command {x : Text} (hx : x.head? = some '\\') : Strikable x [] := by
  cases x with
  | nil => cases hx
  | cons c x =>
    obtain rfl : c = '\\' := by simpa using hx
    exact ⟨⟨'\\', x, rfl, by decide, .inl rfl⟩, List.not_mem_nil⟩

theorem seam_front {x a b : Text} (h : Seam x (a ++ b)) : Seam x a := by
  cases a with
  | nil => exact .inr (.inr fun c hc => by cases hc)
  | cons c a => exact h

/-- The text stays, and the parts around it are rewritten on their own. -/
def Stays (read : Reader Unit) (t p q : Text) : Prop :=
  ∃ p', Struck p p' ∧ read none (t ++ q) = none ∧ (p ++ (t ++ q)).removeAll read = p' ++ (t ++ q.removeAll read)

/-- The text goes with a construct that begins in front of it or at its head. -/
def Goes (read : Reader Unit) (t p q : Text) : Prop :=
  ∃ p₀ p₁ p' y q₂, p = p₀ ++ p₁ ∧ (p₁ ++ t).head? = some '\\' ∧ q = y ++ q₂ ∧ Seam y q₂ ∧ Struck p₀ p' ∧
    (p ++ (t ++ q)).removeAll read = p' ++ q₂.removeAll read

/-- A character in front of the text that begins no construct. -/
theorem around_keep {c : Char} {p q : Text} (hskip : Text.removeAll read (c :: (p ++ (t ++ q))) = c :: Text.removeAll read (p ++ (t ++ q)))
    (h : Stays read t p q ∨ Goes read t p q) : Stays read t (c :: p) q ∨ Goes read t (c :: p) q := by
  refine h.imp ?_ ?_
  · rintro ⟨p', hp, hn, he⟩
    exact ⟨c :: p', .keep c hp, hn, by rw [List.cons_append, hskip, he, List.cons_append]⟩
  · rintro ⟨p₀, p₁, p', y, q₂, rfl, hslash, hq, hseam, hp, he⟩
    exact ⟨c :: p₀, p₁, c :: p', y, q₂, rfl, hslash, hq, hseam, .keep c hp, by rw [List.cons_append, hskip, he, List.cons_append]⟩

/-- A construct in front of the text that does not reach it. -/
theorem around_swap {x p q : Text} (hx : x.head? = some '\\') (hseam : Seam x (p ++ (t ++ q)))
    (hhit : (x ++ p ++ (t ++ q)).removeAll read = (p ++ (t ++ q)).removeAll read)
    (h : Stays read t p q ∨ Goes read t p q) : Stays read t (x ++ p) q ∨ Goes read t (x ++ p) q := by
  refine h.imp ?_ ?_
  · rintro ⟨p', hp, hn, he⟩
    exact ⟨p', .swap (strikable_command hx) (seam_front hseam) hp, hn, hhit.trans he⟩
  · rintro ⟨p₀, p₁, p', y, q₂, rfl, hslash, hq, hseam', hp, he⟩
    rw [List.append_assoc] at hseam
    exact ⟨x ++ p₀, p₁, p', y, q₂, by rw [List.append_assoc], hslash, hq, hseam',
      .swap (strikable_command hx) (seam_front hseam) hp, hhit.trans he⟩

/-- A part in which no construct begins stays as it is. -/
theorem removeAll_stays (hforward : Text.Forward read) {y q : Text} (hy : ∀ z, z <:+ y → z ≠ [] → read none (z ++ q) = none) :
    (y ++ q).removeAll read = y ++ q.removeAll read := by
  induction y with
  | nil => rfl
  | cons c y ih =>
    have hskip : Text.removeAll read (c :: (y ++ q)) = c :: Text.removeAll read (y ++ q) :=
      hforward.replaceAll_cons (hy (c :: y) (List.suffix_refl _) (by simp)) _
    rw [List.cons_append, hskip, ih fun z hz => hy z (hz.trans (List.suffix_cons c y)), List.cons_append]

/-- Taking out the constructs of a reader takes out the text or leaves it, and never cuts it. -/
theorem removeAll_around (ht : t.head? = some '\\') (hread : Spared t read) (p q : Text) : Stays read t p q ∨ Goes read t p q := by
  induction hlen : p.length using Nat.strongRecOn generalizing p with
  | ind n ih =>
    cases hr : read none (p ++ (t ++ q)) with
    | none =>
      cases p with
      | nil =>
        have hinside (z : Text) (hz : z <:+ t) (hne : z ≠ []) : read none (z ++ q) = none := by
          obtain ⟨x, rfl⟩ := hz
          cases x with
          | nil => exact hr
          | cons c x => exact hread.inside (c :: x) z q hr rfl (by simp) hne
        exact .inl ⟨[], .nil, hr, removeAll_stays (y := t) hread.forward hinside⟩
      | cons c p =>
        exact around_keep (hread.forward.replaceAll_cons hr _) (ih p.length (by simp at hlen; omega) p rfl)
    | some r =>
      obtain ⟨⟨⟩, rest⟩ := r
      obtain ⟨x, hx, hslash, hseam⟩ := hread.drops none _ _ _ hr
      have hhit : (p ++ (t ++ q)).removeAll read = rest.removeAll read := by
        cases x with
        | nil => cases hslash
        | cons c x =>
          rw [hx, List.cons_append] at hr ⊢
          exact hread.forward.replaceAll_hit hr rfl _
      rcases hread.outside p q rest hr with ⟨b, -, rfl⟩ | ⟨y, rfl⟩
      · -- the construct ends in front of the text
        obtain rfl : p = x ++ b := List.append_cancel_right (by rw [hx, List.append_assoc])
        have hshort : b.length < n := by
          cases x with
          | nil => cases hslash
          | cons c x =>
            rw [← hlen, List.cons_append, List.length_cons, List.length_append]
            omega
        exact around_swap hslash hseam hhit (ih b.length hshort b rfl)
      · -- it ends behind the text
        obtain rfl : x = p ++ t ++ y := List.append_cancel_right (by rw [← hx]; simp)
        refine .inr ⟨[], p, [], y, rest, rfl, ?_, rfl, hseam.of_append, .nil, hhit⟩
        cases hpt : p ++ t with
        | nil =>
          rw [(List.append_eq_nil_iff.1 hpt).2] at ht
          cases ht
        | cons c z => rwa [hpt] at hslash

end Around

/-! ## The commands of an article -/

open Text (Letters word behindWord)

/-- A starred command is the command, with its star where it has one. -/
theorem starred?_cases {m s r : Text} (h : Command.starred? m s = some r) :
    ∃ r₀, Command.after? m s = some r₀ ∧ (r = r₀ ∨ r₀ = '*' :: r) := by
  unfold Command.starred? at h
  unfold Command.after?
  split at h
  · rename_i c r hr
    rw [hr]
    split at h
    · cases h
      exact ⟨_, rfl, .inl rfl⟩
    · cases h
      exact ⟨_, rfl, .inr rfl⟩
  · rename_i hr
    rw [hr]
    cases h
    exact ⟨_, rfl, .inr rfl⟩
  · rename_i c r _ _ hr
    rw [hr]
    split at h
    · cases h
    · rename_i hc
      cases h
      exact ⟨c :: r, by simp [hc], .inl rfl⟩
  · rename_i hr
    rw [hr]
    cases h
    exact ⟨_, rfl, .inl rfl⟩
  · cases h

theorem dropMacroName_eq {s rest : Text} (h : s.dropWhile isBlank = '\\' :: rest) : dropMacroName s =
    if (rest.dropWhile fun c => isAsciiLetter c || c = '@').length < rest.length then
      rest.dropWhile fun c => isAsciiLetter c || c = '@'
    else s := by
  unfold dropMacroName
  rw [h]
  rfl

/-- Behind the name of a macro no letter stands. -/
theorem dropMacroName_cases (s : Text) :
    dropMacroName s = s ∨ (dropMacroName s <:+ s ∧ ∀ c ∈ (dropMacroName s).head?, isCapital c = false) := by
  unfold dropMacroName
  split
  · rename_i rest hrest
    dsimp only
    split
    · refine .inr ⟨?_, fun c hc => ?_⟩
      · refine (List.dropWhile_suffix _).trans ((List.suffix_cons '\\' rest).trans ?_)
        rw [← hrest]
        exact List.dropWhile_suffix _
      · obtain ⟨u, hu⟩ := List.head?_eq_some_iff.1 hc
        have hstop := Text.head_dropWhile hu
        exact isCapital_of_not_letter (Bool.or_eq_false_iff.1 hstop).1
    · exact .inl rfl
  · exact .inl rfl

/-- Taking out a command cuts no token but in its digits. -/
theorem drops_command {m : Text} (hm : Closes [] ('\\' :: m)) : Drops (command m) := by
  intro before s a rest h
  obtain ⟨r, hr, he⟩ := Option.map_eq_some_iff.1 h
  have hcloses := Command.closes_starred? hm hr
  obtain ⟨u, hu⟩ := Command.head_starred? hr
  have hrest : Closes rest s ∨ rest <:+ r ∧ ∀ c ∈ rest.head?, isCapital c = false := by
    have hinner : ∀ inner, (inner = r ∨ inner <:+ r ∧ ∀ c ∈ inner.head?, isCapital c = false) → dropGroups inner = rest →
        Closes rest s ∨ rest <:+ r ∧ ∀ c ∈ rest.head?, isCapital c = false := by
      rintro inner hinner rfl
      rcases closes_dropGroups inner with hnone | hgroups
      · rw [hnone]
        rcases hinner with rfl | hbare
        · exact .inl hcloses
        · exact .inr hbare
      · rcases hinner with rfl | ⟨hsuffix, -⟩
        · exact .inl (hgroups.of_suffix hcloses.suffix)
        · exact .inl (hgroups.of_suffix (hsuffix.trans hcloses.suffix))
    refine hinner _ ?_ (Prod.mk.inj he).2
    split
    · exact dropMacroName_cases r
    · exact .inl rfl
  have hhead {x : Text} (hx : s = x ++ rest) (hne : x ≠ []) : x.head? = some '\\' := by
    cases x with
    | nil => exact absurd rfl hne
    | cons c x =>
      rw [hu] at hx
      rw [← (List.cons.inj hx).1]
      rfl
  rcases hrest with hclose | ⟨⟨y, rfl⟩, hhead'⟩
  · obtain ⟨v, c, hs, hc⟩ := hclose
    have hx : s = (v ++ [c]) ++ rest := by rw [hs, List.append_assoc, List.singleton_append]
    exact ⟨v ++ [c], hx, hhead hx (by simp), .inr (.inl ⟨v, c, rfl, hc⟩)⟩
  · obtain ⟨v, c, hs, -⟩ := hcloses
    have hx : s = (v ++ c :: y) ++ rest := by rw [hs, List.append_assoc, List.cons_append]
    exact ⟨v ++ c :: y, hx, hhead hx (by simp), .inr (.inr hhead')⟩

theorem dropWhile_slash {p : Char → Bool} (hp : p '\\' = false) (b : Text) {v : Text} (hv : v.head? = some '\\') :
    (b ++ v).dropWhile p = b.dropWhile p ++ v := by
  induction b with
  | nil =>
    cases v with
    | nil => cases hv
    | cons c v =>
      obtain rfl : c = '\\' := by simpa using hv
      exact List.dropWhile_cons_of_neg (by simp [hp])
  | cons c b ih =>
    cases hc : p c with
    | true => rw [List.cons_append, List.dropWhile_cons_of_pos hc, List.dropWhile_cons_of_pos hc, ih]
    | false =>
      rw [List.cons_append, List.dropWhile_cons_of_neg (by simp [hc]), List.dropWhile_cons_of_neg (by simp [hc]),
        List.cons_append]

section Around

variable {e : Entry} {name m q : Text}

theorem head_groups (hclosed : e.Closed) : ∃ c u, e.groups = c :: u ∧ c ∈ [' ', '\t', '\r', '\n', '[', '{'] := by
  unfold Entry.groups
  cases hgap : e.gap with
  | cons c u =>
    have hc : isGap c = true := hclosed.gap c (by rw [hgap]; simp)
    refine ⟨c, _, rfl, ?_⟩
    simp only [isGap, Bool.or_eq_true, decide_eq_true_eq] at hc
    simp only [List.mem_cons]
    tauto
  | nil =>
    unfold Entry.shortForm
    split
    · exact ⟨'{', _, rfl, by simp⟩
    · exact ⟨'[', _, rfl, by simp⟩

/-- The word of an entry is its name, and behind it are its groups. -/
theorem word_source (hclosed : e.Closed) (hname : Letters name) (q : Text) :
    word (name ++ (e.groups ++ q)) = name ∧ behindWord (name ++ (e.groups ++ q)) = e.groups ++ q := by
  obtain ⟨c, u, hgroups, hc⟩ := head_groups hclosed
  have hletter := (by decide : ∀ c ∈ [' ', '\t', '\r', '\n', '[', '{'], isAsciiLetter c = false) c hc
  rw [Text.word_append_of_letters hname, Text.behindWord_append_of_letters hname, hgroups, List.cons_append,
    Text.word_cons_of_not_letter hletter, Text.behindWord_cons_of_not_letter hletter, List.append_nil]
  exact ⟨rfl, rfl⟩

theorem dropMacroName_around (hclosed : e.Closed) (hname : Letters name) (hne : name ≠ []) (b : Text) :
    (∃ b', b' <:+ b ∧ dropMacroName (b ++ (e.source name ++ q)) = b' ++ (e.source name ++ q)) ∨
      dropMacroName (b ++ (e.source name ++ q)) = e.groups ++ q := by
  have hslash : (e.source name ++ q).head? = some '\\' := rfl
  cases hb : b.dropWhile isBlank with
  | nil =>
    obtain ⟨c, u, hgroups, hc⟩ := head_groups hclosed
    have hdrop : (name ++ (e.groups ++ q)).dropWhile (fun c => isAsciiLetter c || c = '@') = e.groups ++ q := by
      rw [List.dropWhile_append_of_pos fun c hc => by simp [hname c hc], hgroups]
      exact List.dropWhile_cons_of_neg ((by decide : ∀ c ∈ [' ', '\t', '\r', '\n', '[', '{'],
        ¬(isAsciiLetter c || decide (c = '@')) = true) c hc)
    have hlt : (e.groups ++ q).length < (name ++ (e.groups ++ q)).length := by
      have := List.length_pos_of_ne_nil hne
      simp only [List.length_append]
      omega
    have hsource : b.dropWhile isBlank ++ (e.source name ++ q) = '\\' :: (name ++ (e.groups ++ q)) := by
      simp [hb, Entry.source]
    refine .inr ?_
    rw [dropMacroName_eq ((dropWhile_slash (by decide) b hslash).trans hsource), hdrop, if_pos hlt]
  | cons c b₁ =>
    have hb₁ : b₁ <:+ b := (List.suffix_cons c b₁).trans (hb ▸ List.dropWhile_suffix isBlank)
    have hdrop : (b ++ (e.source name ++ q)).dropWhile isBlank = c :: (b₁ ++ (e.source name ++ q)) := by
      rw [dropWhile_slash (by decide) b hslash, hb, List.cons_append]
    refine .inl ?_
    by_cases hc : c = '\\'
    · rw [dropMacroName_eq (hc ▸ hdrop)]
      split
      · rw [dropWhile_slash (by decide) b₁ hslash]
        exact ⟨_, (List.dropWhile_suffix _).trans hb₁, rfl⟩
      · exact ⟨b, List.suffix_refl b, rfl⟩
    · refine ⟨b, List.suffix_refl b, ?_⟩
      unfold dropMacroName
      rw [hdrop]
      split
      · rename_i h
        exact absurd (List.cons.inj h).1 hc
      · rfl

/-- Behind its first backslash an entry has backslashes only in its groups, and it ends with a brace. -/
theorem suffix_groups (hname : Letters name) {x y : Text} (hxy : e.source name = x ++ '\\' :: y) (hx : x ≠ []) :
    '\\' :: y <:+ e.groups ∧ ∃ z, y = z ++ ['}'] := by
  have hsuffix : '\\' :: y <:+ e.groups := by
    cases x with
    | nil => exact absurd rfl hx
    | cons d x =>
      obtain ⟨-, htail⟩ := List.cons.inj hxy
      rcases List.append_eq_append_iff.1 htail with ⟨z, -, hz⟩ | ⟨z, rfl, hz⟩
      · exact ⟨z, hz.symm⟩
      · cases z with
        | nil => exact ⟨[], hz⟩
        | cons d z =>
          obtain ⟨rfl, -⟩ := List.cons.inj hz
          exact absurd (hname '\\' (by simp)) (by decide)
  refine ⟨hsuffix, ?_⟩
  have hlast : e.groups = (e.gap ++ (e.shortForm ++ '{' :: e.argument)) ++ ['}'] := by simp [Entry.groups]
  obtain ⟨z, hz⟩ := hsuffix
  rcases List.eq_nil_or_concat y with rfl | ⟨y, c, rfl⟩
  · have := (List.append_inj' (hz.trans hlast) rfl).2
    simp at this
  · rw [List.concat_eq_append, ← List.cons_append, ← List.append_assoc] at hz
    have hc := (List.append_inj' (hz.trans hlast) rfl).2
    exact ⟨y, by rw [List.concat_eq_append, hc]⟩

/-- A command that does not stand in the groups is not read in the entry. -/
theorem after?_inside (hname : Letters name) (hm : Letters m) (hout : e.groups.occurs (Command.reader m) = false) {x y : Text}
    (hxy : e.source name = x ++ y) (hx : x ≠ []) (hy : y ≠ []) : Command.after? m (y ++ q) = none := by
  have hmisses : Text.Misses (Command.reader m) e.groups :=
    Text.Forward.misses_of_find?_eq_none (fun _ _ _ => rfl) rfl (by simpa [Text.occurs] using hout)
  cases y with
  | nil => exact absurd rfl hy
  | cons c y =>
    by_cases hc : c = '\\'
    · subst hc
      obtain ⟨hsuffix, z, rfl⟩ := suffix_groups hname hxy hx
      obtain ⟨d, r, -, -, hword⟩ := Text.behindWord_eq_cons (s := z ++ ['}']) fun h => absurd (h '}' (by simp)) (by decide)
      have hnone : Command.after? m ('\\' :: (z ++ ['}'])) = none := by
        simpa [Command.reader] using hmisses none _ hsuffix
      rw [Command.after?_slash hm] at hnone
      rw [List.cons_append, Command.after?_slash hm, (hword q).1]
      split at hnone
      · cases hnone
      · rename_i hne
        rw [if_neg hne]
    · exact Command.after?_of_ne hc _

/-- The entry is read as its own command. -/
theorem command_source (hclosed : e.Closed) (name q : Text) :
    ∃ r, command name none (e.source name ++ q) = some r := by
  obtain ⟨c, u, hgroups, hc⟩ := head_groups hclosed
  have hletter := (by decide : ∀ c ∈ [' ', '\t', '\r', '\n', '[', '{'], isAsciiLetter c = false ∧ c ≠ '*') c hc
  have hafter : Text.after? ('\\' :: name) (e.source name ++ q) = some (c :: (u ++ q)) :=
    Text.after?_eq_some_iff.2 (by simp [Entry.source, hgroups])
  have hstarred : Command.starred? name (e.source name ++ q) = some (c :: (u ++ q)) := by
    generalize u ++ q = v at hafter
    unfold Command.starred?
    rw [hafter]
    split
    · rename_i h
      cases h
      exact absurd rfl hletter.2
    · rename_i h
      cases h
      exact absurd rfl hletter.2
    · rename_i h
      cases h
      simp [hletter.1]
    · rename_i h
      cases h
    · rename_i h
      cases h
  exact ⟨_, by rw [command, hstarred, Option.map_some]⟩

/-- Behind the command `m` nothing begins inside the entry in front of which it stands. -/
theorem outside_command (hclosed : e.Closed) (htight : e.Tight) (hname : Letters name) (hne : name ≠ []) (hm : Letters m)
    {b rest : Text} (h : command m none ('\\' :: (b ++ (e.source name ++ q))) = some ((), rest)) :
    Spares (e.source name) q b rest := by
  have hpassed := Entry.passed_source hclosed htight hne hname
  obtain ⟨r, hr, he⟩ := Option.map_eq_some_iff.1 h
  have he := (Prod.mk.inj he).2
  obtain ⟨r₀, hr₀, hstar⟩ := starred?_cases hr
  have hbehind : r₀ = b.dropWhile isAsciiLetter ++ (e.source name ++ q) := by
    rw [Command.after?_slash hm] at hr₀
    split at hr₀
    · rw [← Option.some.inj hr₀]
      exact dropWhile_slash (by decide) b rfl
    · cases hr₀
  obtain ⟨b₁, hb₁, rfl⟩ : ∃ b₁, b₁ <:+ b ∧ r = b₁ ++ (e.source name ++ q) := by
    have hsuffix := List.dropWhile_suffix (l := b) isAsciiLetter
    rcases hstar with rfl | hstar
    · exact ⟨_, hsuffix, hbehind⟩
    · rw [hbehind] at hstar
      cases hword : b.dropWhile isAsciiLetter with
      | nil =>
        rw [hword] at hstar
        exact absurd (List.cons.inj (show '\\' :: _ = '*' :: r from hstar)).1 (by decide)
      | cons d b₁ =>
        rw [hword] at hstar hsuffix
        exact ⟨b₁, (List.suffix_cons d b₁).trans hsuffix, (List.cons.inj hstar).2.symm⟩
  have hspares (b₂ : Text) (hb₂ : b₂ <:+ b₁) (hrest : dropGroups (b₂ ++ (e.source name ++ q)) = rest) :
      Spares (e.source name) q b rest := by
    rw [← hrest]
    exact (spares_dropGroups hpassed rfl b₂).imp (fun ⟨b', hb', h⟩ => ⟨b', hb'.trans (hb₂.trans hb₁), h⟩) id
  cases hnames : namingCommands.contains m with
  | false =>
    rw [hnames] at he
    exact hspares b₁ (List.suffix_refl b₁) he
  | true =>
    rw [hnames, if_pos rfl] at he
    rcases dropMacroName_around hclosed hname hne b₁ with ⟨b₂, hb₂, hbare⟩ | hbare
    · rw [hbare] at he
      exact hspares b₂ hb₂ he
    · rw [hbare] at he
      rw [← he]
      exact .inr (Entry.dropGroups_groups hclosed htight q)

/-- Read at its own head, the entry is taken out whole. -/
theorem whole_command (hclosed : e.Closed) (htight : e.Tight) (hname : Letters name) (hnaming : namingCommands.contains name = false)
    (hm : Letters m) {rest : Text} (h : command m none (e.source name ++ q) = some ((), rest)) : rest <:+ q := by
  obtain ⟨r, hr, he⟩ := Option.map_eq_some_iff.1 h
  have he := (Prod.mk.inj he).2
  obtain ⟨r₀, hr₀, hstar⟩ := starred?_cases hr
  have hsource : e.source name ++ q = '\\' :: (name ++ (e.groups ++ q)) := by simp [Entry.source]
  obtain ⟨hword, hbehind⟩ := word_source hclosed hname q
  rw [hsource, Command.after?_slash hm, hword, hbehind] at hr₀
  split at hr₀
  · rename_i hm
    subst hm
    obtain rfl := Option.some.inj hr₀
    rcases hstar with rfl | hstar
    · rw [hnaming] at he
      rw [← he]
      exact Entry.dropGroups_groups hclosed htight q
    · -- the groups do not begin with a star
      obtain ⟨c, u, hgroups, hc⟩ := head_groups hclosed
      rw [hgroups] at hstar
      exact absurd (List.cons.inj hstar).1 ((by decide : ∀ c ∈ [' ', '\t', '\r', '\n', '[', '{'], c ≠ '*') c hc)
  · cases hr₀

/-- Taking out a command that does not stand in the entry spares it. -/
theorem spared_command (hclosed : e.Closed) (htight : e.Tight) (hname : Letters name) (hne : name ≠ [])
    (hnaming : namingCommands.contains name = false) (hm : Letters m) (hlast : Closes [] ('\\' :: m))
    (hout : m = name ∨ e.groups.occurs (Command.reader m) = false) : Spared (e.source name) (command m) where
  forward _ _ _ := rfl
  drops := drops_command hlast
  outside b q rest h := by
    cases b with
    | nil => exact .inr (whole_command hclosed htight hname hnaming hm h)
    | cons c b =>
      obtain ⟨r, hr, -⟩ := Option.map_eq_some_iff.1 h
      obtain ⟨u, hu⟩ := Command.head_starred? hr
      obtain rfl : c = '\\' := (List.cons.inj hu).1
      exact (outside_command hclosed htight hname hne hm h).imp
        (fun ⟨b', hb', h⟩ => ⟨b', hb'.trans (List.suffix_cons _ b), h⟩) id
  inside x y q hn hxy hx hy := by
    rcases hout with rfl | hout
    · obtain ⟨r, hr⟩ := command_source hclosed m q
      rw [hr] at hn
      cases hn
    · cases hr : command m none (y ++ q) with
      | none => rfl
      | some r =>
        obtain ⟨s, hs, -⟩ := Option.map_eq_some_iff.1 hr
        obtain ⟨r₀, hr₀, -⟩ := starred?_cases hs
        rw [after?_inside hname hm hout hxy hx hy] at hr₀
        cases hr₀

end Around

end Galley.Article
