import Galley.Block.Table
import Galley.Proofs.WholeTokens
/-!
# Tokens stand for their fragments

In texts of whole tokens, registering a fragment and putting its token in the fragment's place changes nothing
of what the text shows (`resolve_register`), however often it is done (`Registered.resolve_eq`). A token that
comes about where two such texts meet is one that registering does not see (`splitToken_shown`).
-/

namespace Galley.Block

open Token (word)

/-! ## What a text shows -/

section Shown

/-- Reads a token that has an entry, for its fragment. -/
def live (t : Table) : Reader Text := fun _ s => t.entries.findSome? fun e => (Text.after? e.1 s).map (e.2, ·)

/-- The text with the fragments of a table in the places of their tokens. -/
def resolve (t : Table) (s : Text) : Text := s.replaceAll (live t) id

variable {t t' : Table} {issued : List Text} {s : Text}

theorem forward_live (t : Table) : Text.Forward (live t) := fun _ _ _ => rfl

theorem live_eq_none (h : ∀ x ∈ t.tokens, ¬x <+: s) : live t none s = none := by
  rw [live, List.findSome?_eq_none_iff]
  intro e he
  cases hr : Text.after? e.1 s with
  | none => rw [Option.map_none]
  | some r => exact absurd ⟨r, (Text.after?_eq_some_iff.1 hr).symm⟩ (h e.1 (List.mem_map_of_mem he))

theorem resolve_cons {c : Char} (h : ∀ x ∈ t.tokens, ¬x <+: c :: s) : resolve t (c :: s) = c :: resolve t s := by
  rw [resolve, Text.replaceAll, (forward_live t).cut_cons (live_eq_none h)]
  rfl

theorem resolve_plain {u : Text} (h : ∀ v, v <:+ u → v ≠ [] → ∀ x ∈ t.tokens, ¬x <+: v ++ s) :
    resolve t (u ++ s) = u ++ resolve t s := by
  induction u with
  | nil => rfl
  | cons c u ih =>
    have hhead : ∀ x ∈ t.tokens, ¬x <+: c :: (u ++ s) := h (c :: u) (List.suffix_refl _) (by simp)
    rw [List.cons_append, resolve_cons hhead, ih fun v hv => h v (hv.trans (List.suffix_cons c u)), List.cons_append]

variable (hn : Numbered issued) (hlen : issued.length < 10 ^ 6) (ht : t.tokens ⊆ issued)

include hn hlen ht

/-- A token shows its fragment, and itself if it has none. -/
theorem resolve_token {token : Text} (hm : token ∈ issued) (rest : Text) :
    resolve t (token ++ rest) = (t.get? token).getD token ++ resolve t rest := by
  have hfirst : ∀ e ∈ t.entries, e.1 <+: token ++ rest → e.1 = token := by
    rintro e he ⟨r, hr⟩
    exact token_unique hn hlen (ht (List.mem_map_of_mem he)) hm hr
  cases hget : t.get? token with
  | none =>
    refine resolve_plain fun v hv hne x hx hxv => ?_
    obtain ⟨p, hp⟩ := hv
    by_cases hempty : p = []
    · -- an entry's token begins where this one does
      rw [hempty, List.nil_append] at hp
      obtain ⟨e, he, rfl⟩ := List.mem_map.1 hx
      have hsame := hfirst e he (hp ▸ hxv)
      rw [Table.get?, List.lookup_eq_none_iff] at hget
      exact absurd hsame.symm (by simpa using hget e he)
    · exact not_word_behind hn hlen hm hp.symm hempty hne rest ((begins_token hn hlen (ht hx)).trans hxv)
  | some fragment =>
    obtain ⟨as, bs, hentries, has⟩ := List.lookup_eq_some_iff.1 hget
    have hread : live t none (token ++ rest) = some (fragment, rest) := by
      have hskip : as.findSome? (fun e => (Text.after? e.1 (token ++ rest)).map (e.2, ·)) = none := by
        rw [List.findSome?_eq_none_iff]
        intro e he
        cases hr : Text.after? e.1 (token ++ rest) with
        | none => rw [Option.map_none]
        | some r =>
          have hsame := hfirst e (by rw [hentries]; simp [he]) ⟨r, (Text.after?_eq_some_iff.1 hr).symm⟩
          exact absurd hsame.symm (by simpa using has e he)
      rw [live, hentries, List.findSome?_append, hskip, Option.none_or, List.findSome?_cons]
      simp only [Text.after?_append, Option.map_some]
    obtain ⟨c, tail, hc⟩ : ∃ c tail, token = c :: tail := by
      cases token with
      | nil => exact absurd (begins_token hn hlen hm) (by decide)
      | cons c tail => exact ⟨c, tail, rfl⟩
    rw [hc, List.cons_append] at hread
    rw [hc, List.cons_append, resolve, Text.replaceAll, (forward_live t).cut_hit hread rfl]
    rfl

theorem not_prefix_of_not_word (hw : ¬word <+: s) : ∀ x ∈ t.tokens, ¬x <+: s :=
  fun _ hx hxs => hw ((begins_token hn hlen (ht hx)).trans hxs)

/-- A text of whole tokens shows the same in front of another as alone. -/
theorem resolve_append {x y : Text} (hx : Whole issued x) (hxy : Apart x y) :
    resolve t (x ++ y) = resolve t x ++ resolve t y := by
  refine Whole.induct hn hlen (P := fun x => Apart x y → resolve t (x ++ y) = resolve t x ++ resolve t y)
    ?_ ?_ ?_ hx hxy
  · intro _
    rfl
  · intro c x hw ih hxy
    have hw' : ¬word <+: c :: (x ++ y) := by
      intro h
      have hplace := hxy (c :: (x ++ y)) ((List.mem_tails _ _).2 (List.suffix_refl _)) h
      refine hw (List.prefix_of_prefix_length_le h (List.prefix_append (c :: x) y) ?_)
      simp only [List.length_cons, List.length_append] at hplace ⊢
      omega
    rw [List.cons_append, resolve_cons (not_prefix_of_not_word hn hlen ht hw'),
      resolve_cons (not_prefix_of_not_word hn hlen ht hw), ih (hxy.of_suffix (List.suffix_cons c x)), List.cons_append]
  · intro token hm rest _ ih hxy
    rw [List.append_assoc, resolve_token hn hlen ht hm, resolve_token hn hlen ht hm,
      ih (hxy.of_suffix (List.suffix_append token rest)), List.append_assoc]

/-- What a text of whole tokens shows depends on the entries of the tokens in it only. -/
theorem resolve_congr (ht' : t'.tokens ⊆ issued) (hs : Whole issued s)
    (hsame : ∀ x ∈ issued, x <:+: s → t'.get? x = t.get? x) : resolve t' s = resolve t s := by
  refine Whole.induct hn hlen
    (P := fun s => (∀ x ∈ issued, x <:+: s → t'.get? x = t.get? x) → resolve t' s = resolve t s) ?_ ?_ ?_ hs hsame
  · intro _
    rfl
  · intro c s hw ih hsame
    rw [resolve_cons (not_prefix_of_not_word hn hlen ht' hw), resolve_cons (not_prefix_of_not_word hn hlen ht hw),
      ih fun x hx h => hsame x hx (h.trans (List.suffix_cons c s).isInfix)]
  · intro token hm rest _ ih hsame
    rw [resolve_token hn hlen ht' hm, resolve_token hn hlen ht hm, hsame token hm (List.prefix_append token rest).isInfix,
      ih fun x hx h => hsame x hx (h.trans (List.suffix_append token rest).isInfix)]

end Shown

/-! ## Taking in fragments -/

namespace Table

theorem lookup_filter (p : Text → Bool) (x : Text) (l : List (Text × Text)) :
    (l.filter fun e => p e.1).lookup x = if p x then l.lookup x else none := by
  induction l with
  | nil => simp
  | cons e l ih =>
    obtain ⟨token, fragment⟩ := e
    rw [List.filter_cons]
    by_cases hx : x = token
    · subst hx
      cases hp : p x <;> simp [hp, ih]
    · have hne : (x == token) = false := beq_eq_false_iff_ne.2 hx
      cases hp : p token <;> simp [List.lookup_cons, hne, ih]

theorem get?_erase {t : Table} {token x : Text} (h : x ≠ token) : (t.erase token).get? x = t.get? x := by
  rw [get?, erase, lookup_filter (fun e => decide (e ≠ token)), if_pos (by simpa using h), get?]

theorem contains_iff {t : Table} {x : Text} : (∃ fragment, t.get? x = some fragment) ↔ x ∈ t.tokens := by
  rw [← Option.isSome_iff_exists, get?, tokens, List.lookup_isSome_iff, List.mem_map]
  constructor
  · rintro ⟨e, he, hx⟩
    exact ⟨e, he, (beq_iff_eq.1 hx).symm⟩
  · rintro ⟨e, he, rfl⟩
    exact ⟨e, he, beq_self_eq_true e.1⟩

theorem tokens_erase_subset (t : Table) (token : Text) : (t.erase token).tokens ⊆ t.tokens := by
  intro x hx
  obtain ⟨e, he, rfl⟩ := List.mem_map.1 hx
  exact List.mem_map_of_mem (List.mem_of_mem_filter he)

theorem absorbPieces_subset (t : Table) (ps : List (Piece Text)) :
    (t.absorbPieces ps).2.tokens ⊆ t.tokens ∧ (t.absorbPieces ps).2.issued = t.issued := by
  induction ps generalizing t with
  | nil => exact ⟨List.Subset.refl _, rfl⟩
  | cons p ps ih =>
    cases p with
    | char c => exact ih t
    | hit token source =>
      simp only [absorbPieces]
      split
      · obtain ⟨hsub, hissued⟩ := ih (t.erase token)
        exact ⟨fun x hx => tokens_erase_subset t token (hsub hx), hissued⟩
      · exact ih t

theorem absorb_subset (t : Table) (s : Text) : (t.absorb s).2.tokens ⊆ t.tokens ∧ (t.absorb s).2.issued = t.issued :=
  absorbPieces_subset t _

theorem register_eq (t : Table) (kind : Kind) (h : Text) :
    t.register kind h = (Token.ofNumber kind (t.issued + 1),
      { (({ t with issued := t.issued + 1 } : Table).absorb h).2 with
        entries := (({ t with issued := t.issued + 1 } : Table).absorb h).2.entries ++
          [(Token.ofNumber kind (t.issued + 1), (({ t with issued := t.issued + 1 } : Table).absorb h).1)] }) := rfl

theorem issued_register (t : Table) (kind : Kind) (h : Text) : (t.register kind h).2.issued = t.issued + 1 := by
  rw [register_eq]
  exact (absorb_subset _ h).2

theorem issued_foldl_register (kind : Kind) (hs : List Text) (t : Table) :
    (hs.foldl (fun t h => (t.register kind h).2) t).issued = t.issued + hs.length := by
  induction hs generalizing t with
  | nil => rfl
  | cons h hs ih =>
    rw [List.foldl_cons, ih, issued_register, List.length_cons]
    omega

end Table

section Absorb

variable {t : Table} {issued : List Text} {h : Text}
variable (hn : Numbered issued) (hlen : issued.length < 10 ^ 6)

include hn hlen

/-- Text of whole tokens in which each entry's token stands once at most is taken in as it shows, and the entries
    that stay are those whose token does not stand in it. -/
theorem absorb_whole (ht : t.tokens ⊆ issued) (hs : Whole issued h) (honce : ∀ x ∈ t.tokens, occurrences x h ≤ 1) :
    t.absorb h = (resolve t h, { t with entries := t.entries.filter (¬·.1 <:+: h) }) := by
  refine Whole.induct hn hlen (P := fun h => ∀ t : Table, t.tokens ⊆ issued → (∀ x ∈ t.tokens, occurrences x h ≤ 1) →
    t.absorb h = (resolve t h, { t with entries := t.entries.filter (¬·.1 <:+: h) })) ?_ ?_ ?_ hs t ht honce
  · intro t ht _
    have hall : t.entries.filter (¬·.1 <:+: []) = t.entries := by
      rw [List.filter_eq_self]
      intro e he
      simpa using not_infix_nil hn hlen (ht (List.mem_map_of_mem he))
    rw [hall]
    rfl
  · intro c h hw ih t ht honce
    have hfilter : t.entries.filter (¬·.1 <:+: c :: h) = t.entries.filter (¬·.1 <:+: h) := by
      refine List.filter_congr fun e he => ?_
      have hno := not_prefix_of_not_word hn hlen ht hw _ (List.mem_map_of_mem he)
      simp only [List.infix_cons_iff, hno, false_or]
    have hrest := ih t ht fun x hx =>
      (Nat.le_trans (occurrences_le_of_suffix (List.suffix_cons c h)) (honce x hx))
    rw [hfilter, resolve_cons (not_prefix_of_not_word hn hlen ht hw), Table.absorb,
      forward_reader.cut_cons (reader_eq_none hw), Table.absorbPieces]
    rw [Table.absorb] at hrest
    rw [hrest]
  · intro token hm rest hwhole ih t ht honce
    have hsplit (e : Text × Text) (he : e ∈ t.entries) : e.1 <:+: token ++ rest ↔ e.1 = token ∨ e.1 <:+: rest :=
      infix_token hn hlen (ht (List.mem_map_of_mem he)) hm
    have honce' (x : Text) (hx : x ∈ t.tokens) : occurrences x rest ≤ 1 :=
      Nat.le_trans (occurrences_le_of_suffix (List.suffix_append token rest)) (honce x hx)
    rw [Table.absorb, cut_token hn hlen hm, resolve_token hn hlen ht hm, Table.absorbPieces]
    cases hget : t.get? token with
    | none =>
      have hrest := ih t ht honce'
      rw [Table.absorb] at hrest
      rw [hrest]
      have hfilter : t.entries.filter (¬·.1 <:+: token ++ rest) = t.entries.filter (¬·.1 <:+: rest) := by
        refine List.filter_congr fun e he => ?_
        have hne : e.1 ≠ token := by
          rintro rfl
          rw [Table.get?, List.lookup_eq_none_iff] at hget
          simpa using hget e he
        simp only [hsplit e he, hne, false_or]
      rw [hfilter]
      rfl
    | some fragment =>
      -- the token does not stand in the rest, which shows the same without its entry
      have hlive : token ∈ t.tokens := Table.contains_iff.1 ⟨fragment, hget⟩
      have hgone : ¬token <:+: rest := fun h => by
        have htwo := occurrences_append_le (word_ne_nil hn hlen hm) token rest
        have := honce token hlive
        have := one_le_occurrences h
        have := one_le_occurrences (List.infix_refl token)
        omega
      have hsub : (t.erase token).tokens ⊆ issued := fun x hx => ht (Table.tokens_erase_subset t token hx)
      have hrest := ih (t.erase token) hsub fun x hx => honce' x (Table.tokens_erase_subset t token hx)
      have hshow : resolve (t.erase token) rest = resolve t rest := by
        refine resolve_congr hn hlen ht hsub hwhole fun x _ hx => Table.get?_erase ?_
        rintro rfl
        exact hgone hx
      have hfilter : (t.erase token).entries.filter (¬·.1 <:+: rest) = t.entries.filter (¬·.1 <:+: token ++ rest) := by
        rw [Table.erase, List.filter_filter]
        refine List.filter_congr fun e he => ?_
        simp only [hsplit e he, not_or, ne_eq, Bool.decide_and, Bool.and_comm]
      rw [hshow, hfilter, Table.absorb] at hrest
      simp only [hrest]
      rfl


end Absorb

/-! ## Tables that come about -/

/-- A table that comes about from the empty one, with the tokens that were handed out on the way. -/
inductive Reached : List Text → Table → Prop
  | empty : Reached [] Table.empty
  | register {issued : List Text} {t : Table} (kind : Kind) (h : Text) (ht : Reached issued t) :
      Reached (issued ++ [(t.register kind h).1]) (t.register kind h).2
  | absorb {issued : List Text} {t : Table} (s : Text) (ht : Reached issued t) : Reached issued (t.absorb s).2
  | prune {issued : List Text} {t : Table} (s : Text) (ht : Reached issued t) : Reached issued (t.prune s).2

namespace Reached

variable {t : Table} {issued : List Text}

theorem numbered_concat {kind : Kind} (h : Numbered issued) :
    Numbered (issued ++ [Token.ofNumber kind (issued.length + 1)]) := by
  intro i token hi
  rw [List.getElem?_append] at hi
  split at hi
  · exact h i token hi
  · rw [List.getElem?_singleton] at hi
    split at hi
    · obtain rfl := Option.some.inj hi
      exact ⟨kind, by rw [show i = issued.length by omega]⟩
    · cases hi

/-- The table counts the tokens that it has handed out, and its entries are for such tokens. -/
theorem counted (ht : Reached issued t) : issued.length = t.issued ∧ Numbered issued ∧ t.tokens ⊆ issued := by
  induction ht with
  | empty => exact ⟨rfl, by intro i token h; simp at h, List.Subset.refl _⟩
  | @register issued t kind h _ ih =>
    obtain ⟨hlen, hn, hsub⟩ := ih
    obtain ⟨htokens, hissued⟩ := Table.absorb_subset { t with issued := t.issued + 1 } h
    rw [Table.register_eq]
    refine ⟨?_, ?_, ?_⟩
    · rw [List.length_append, hlen]
      exact hissued.symm
    · rw [← hlen]
      exact numbered_concat hn
    · rw [Table.tokens, List.map_append]
      exact List.append_subset.2 ⟨fun x hx => List.mem_append_left _ (hsub (htokens hx)),
        List.subset_append_right issued _⟩
  | @absorb issued t s _ ih =>
    obtain ⟨hlen, hn, hsub⟩ := ih
    obtain ⟨htokens, hissued⟩ := t.absorb_subset s
    exact ⟨by rw [hissued, hlen], hn, fun x hx => hsub (htokens hx)⟩
  | @prune issued t s _ ih =>
    obtain ⟨hlen, hn, hsub⟩ := ih
    refine ⟨hlen, hn, fun x hx => ?_⟩
    obtain ⟨e, he, rfl⟩ := List.mem_map.1 hx
    exact hsub (List.mem_map_of_mem (List.mem_of_mem_filter he))

end Reached

/-! ## Registering a part of a text -/

/-- A text in three parts: each is written with whole tokens, and none comes about where two meet. -/
structure Parts (issued : List Text) (a h b : Text) : Prop where
  before : Whole issued a
  inside : Whole issued h
  behind : Whole issued b
  front : Apart a (h ++ b)
  back : Apart h b

section Register

variable {issued : List Text} {t : Table} {a h b : Text}

theorem length_register_lt (ht : Reached issued t) (hlt : t.issued < 999999) (kind : Kind) (h : Text) :
    (issued ++ [(t.register kind h).1]).length < 10 ^ 6 := by
  rw [List.length_append, ht.counted.1, List.length_singleton]
  omega

theorem fresh (ht : Reached issued t) (hlt : t.issued < 999999) (kind : Kind) (h : Text) :
    (t.register kind h).1 ∉ issued := by
  obtain ⟨hlen, hn, -⟩ := ht.counted
  intro hm
  obtain ⟨i, hi, hget⟩ := List.getElem_of_mem hm
  obtain ⟨k, hk⟩ := hn i _ (List.getElem?_eq_getElem hi)
  rw [hget, Table.register_eq] at hk
  rw [hlen] at hi
  have := (Token.ofNumber_inj (by omega) (by omega) hk).2
  omega

theorem register_whole (ht : Reached issued t) (hlt : t.issued < 999999) (kind : Kind) (hs : Whole issued h)
    (honce : ∀ x ∈ t.tokens, occurrences x h ≤ 1) :
    t.register kind h = (Token.ofNumber kind (t.issued + 1),
      { issued := t.issued + 1,
        entries := t.entries.filter (¬·.1 <:+: h) ++ [(Token.ofNumber kind (t.issued + 1), resolve t h)] }) := by
  obtain ⟨hlen, hn, hsub⟩ := ht.counted
  have habsorb := absorb_whole (t := { t with issued := t.issued + 1 }) hn (by omega) hsub hs honce
  rw [Table.register_eq, habsorb]
  rfl

theorem tokens_register (ht : Reached issued t) (hlt : t.issued < 999999) (kind : Kind) (hs : Whole issued h)
    (honce : ∀ x ∈ t.tokens, occurrences x h ≤ 1) :
    (t.register kind h).2.tokens = t.tokens.filter (¬· <:+: h) ++ [(t.register kind h).1] := by
  rw [register_whole ht hlt kind hs honce, Table.tokens, List.map_append, Table.tokens, List.filter_map]
  rfl

theorem get?_register_self (ht : Reached issued t) (hlt : t.issued < 999999) (kind : Kind) (hs : Whole issued h)
    (honce : ∀ x ∈ t.tokens, occurrences x h ≤ 1) :
    (t.register kind h).2.get? (t.register kind h).1 = some (resolve t h) := by
  obtain ⟨-, -, hsub⟩ := ht.counted
  have hnew := fresh ht hlt kind h
  rw [register_whole ht hlt kind hs honce] at hnew ⊢
  rw [Table.get?, List.lookup_append]
  have hnone : (t.entries.filter (¬·.1 <:+: h)).lookup (Token.ofNumber kind (t.issued + 1)) = none := by
    rw [List.lookup_eq_none_iff]
    intro e he
    rw [bne_iff_ne]
    rintro heq
    refine hnew (hsub ?_)
    rw [heq]
    exact List.mem_map_of_mem (List.mem_of_mem_filter he)
  rw [hnone, Option.none_or, List.lookup_cons, beq_self_eq_true]

theorem get?_register_of_ne (ht : Reached issued t) (hlt : t.issued < 999999) (kind : Kind) (hs : Whole issued h)
    (honce : ∀ x ∈ t.tokens, occurrences x h ≤ 1) {x : Text} (hne : x ≠ (t.register kind h).1) :
    (t.register kind h).2.get? x = if x <:+: h then none else t.get? x := by
  have hbeq : (x == Token.ofNumber kind (t.issued + 1)) = false := beq_eq_false_iff_ne.2 hne
  rw [register_whole ht hlt kind hs honce, Table.get?, List.lookup_append, List.lookup_cons, hbeq,
    Table.lookup_filter (fun token => decide ¬token <:+: h), ← Table.get?]
  by_cases hx : x <:+: h <;> simp [hx]

/-- A text that has none of the registered tokens shows the same before and after. -/
theorem resolve_register_of_disjoint (ht : Reached issued t) (hlt : t.issued < 999999) (kind : Kind) (hs : Whole issued h)
    (honce : ∀ x ∈ t.tokens, occurrences x h ≤ 1) {y : Text} (hy : Whole issued y)
    (hyh : ∀ x ∈ t.tokens, x <:+: y → ¬x <:+: h) : resolve (t.register kind h).2 y = resolve t y := by
  obtain ⟨hlen, -, hsub⟩ := ht.counted
  obtain ⟨-, hn', hsub'⟩ := (Reached.register kind h ht).counted
  have hsize := length_register_lt ht hlt kind h
  have hmono : issued ⊆ issued ++ [(t.register kind h).1] := List.subset_append_left _ _
  refine resolve_congr hn' hsize (fun x hx => hmono (hsub hx)) hsub' (hy.mono hmono) fun x hx hxy => ?_
  have hne : x ≠ (t.register kind h).1 := by
    rintro rfl
    -- what stands in the text was handed out before
    obtain ⟨p, q, rfl⟩ := hxy
    rw [List.append_assoc] at hy
    have htail := hy.of_suffix (List.suffix_append p _)
    obtain ⟨r, hr⟩ := begins_token hn' hsize hx
    obtain ⟨x, hxm, r', hr'⟩ := htail _ ((List.mem_tails _ _).2 (List.suffix_refl _)) ⟨r ++ q, by rw [← List.append_assoc, hr]⟩
    have hsame := token_unique hn' hsize (hmono hxm) hx hr'
    exact fresh ht hlt kind h (hsame ▸ hxm)
  rw [get?_register_of_ne ht hlt kind hs honce hne]
  split
  · rename_i hxh
    cases hget : t.get? x with
    | none => rfl
    | some fragment => exact absurd hxh (hyh x (Table.contains_iff.1 ⟨fragment, hget⟩) hxy)
  · rfl

/-- Where each entry's token stands once at most, two parts of a text have no such token in common. -/
theorem disjoint_of_once (hn : Numbered issued) (hlen : issued.length < 10 ^ 6) (hsub : t.tokens ⊆ issued) {y z : Text}
    (honce : ∀ x ∈ t.tokens, occurrences x (y ++ z) ≤ 1) : ∀ x ∈ t.tokens, x <:+: y → ¬x <:+: z := by
  intro x hx hy hz
  have := occurrences_append_le (word_ne_nil hn hlen (hsub hx)) y z
  have := honce x hx
  have := one_le_occurrences hy
  have := one_le_occurrences hz
  omega

theorem once_inside (ht : Reached issued t) (hlt : t.issued < 999999)
    (honce : ∀ x ∈ t.tokens, occurrences x (a ++ (h ++ b)) ≤ 1) : ∀ x ∈ t.tokens, occurrences x h ≤ 1 := by
  obtain ⟨hlen, hn, hsub⟩ := ht.counted
  intro x hx
  have := occurrences_append_le (word_ne_nil hn (by omega) (hsub hx)) h b
  have := occurrences_le_of_suffix (x := x) (List.suffix_append a (h ++ b))
  have := honce x hx
  omega

/-- Putting the token in the place of the registered part changes nothing of what the text shows. -/
theorem resolve_register_parts (ht : Reached issued t) (hlt : t.issued < 999999) (kind : Kind)
    (hparts : Parts issued a h b) (honce : ∀ x ∈ t.tokens, occurrences x (a ++ (h ++ b)) ≤ 1) :
    resolve (t.register kind h).2 (a ++ ((t.register kind h).1 ++ b)) = resolve t (a ++ (h ++ b)) := by
  obtain ⟨hlen, hn, hsub⟩ := ht.counted
  obtain ⟨-, hn', hsub'⟩ := (Reached.register kind h ht).counted
  have hsize := length_register_lt ht hlt kind h
  have hmono : issued ⊆ issued ++ [(t.register kind h).1] := List.subset_append_left _ _
  have htoken : (t.register kind h).1 ∈ issued ++ [(t.register kind h).1] := by simp
  -- each entry's token is in one of the parts
  have honceHB : ∀ x ∈ t.tokens, occurrences x (h ++ b) ≤ 1 := fun x hx =>
    Nat.le_trans (occurrences_le_of_suffix (List.suffix_append a _)) (honce x hx)
  have hah := disjoint_of_once hn (by omega) hsub honce
  have hhb := disjoint_of_once hn (by omega) hsub honceHB
  have honceH := once_inside ht hlt honce
  have ha := resolve_register_of_disjoint ht hlt kind hparts.inside honceH hparts.before
    fun x hx hxa hxh => hah x hx hxa (hxh.trans (List.prefix_append h b).isInfix)
  have hb := resolve_register_of_disjoint ht hlt kind hparts.inside honceH hparts.behind
    fun x hx hxb hxh => hhb x hx hxh hxb
  rw [resolve_append hn' hsize hsub' (hparts.before.mono hmono) (apart_token hn' hsize htoken a b),
    resolve_token hn' hsize hsub' htoken, ha, hb, get?_register_self ht hlt kind hparts.inside honceH,
    Option.getD_some, ← resolve_append hn (by omega) hsub hparts.inside hparts.back,
    ← resolve_append hn (by omega) hsub hparts.before hparts.front]

/-- Registering a part of a text hands out a token that was never handed out before, takes in the entries of the
    tokens in the part and no others, and the text with the token in the part's place shows what it showed. -/
theorem resolve_register (ht : Reached issued t) (hlt : t.issued < 999999) (kind : Kind)
    (hparts : Parts issued a h b) (honce : ∀ x ∈ t.tokens, occurrences x (a ++ (h ++ b)) ≤ 1) :
    resolve (t.register kind h).2 (a ++ ((t.register kind h).1 ++ b)) = resolve t (a ++ (h ++ b)) ∧
      (t.register kind h).2.tokens = t.tokens.filter (¬· <:+: h) ++ [(t.register kind h).1] ∧
      (∀ x, x ≠ (t.register kind h).1 → ¬x <:+: h → (t.register kind h).2.get? x = t.get? x) ∧
      (t.register kind h).1 ∉ issued := by
  have honceH := once_inside ht hlt honce
  refine ⟨resolve_register_parts ht hlt kind hparts honce, tokens_register ht hlt kind hparts.inside honceH, ?_,
    fresh ht hlt kind h⟩
  intro x hne hx
  rw [get?_register_of_ne ht hlt kind hparts.inside honceH hne, if_neg hx]

/-- A token of the registered part and one in front of it are both resolved. -/
theorem resolve_register_nested :
    let t := ((Table.empty.register .math "x".toList).2.register .math "y".toList).2
    let issued := ["LATEXPREVIEWMATH000001".toList, "LATEXPREVIEWMATH000002".toList]
    let a := "7LATEXPREVIEWMATH000002".toList
    let h := "(LATEXPREVIEWMATH000001)".toList
    resolve (t.register .list h).2 (a ++ ((t.register .list h).1 ++ "8".toList)) = resolve t (a ++ (h ++ "8".toList)) ∧
      (t.register .list h).2.tokens = t.tokens.filter (¬· <:+: h) ++ [(t.register .list h).1] ∧
      (∀ x, x ≠ (t.register .list h).1 → ¬x <:+: h → (t.register .list h).2.get? x = t.get? x) ∧
      (t.register .list h).1 ∉ issued :=
  resolve_register (.register .math _ (.register .math _ .empty)) (by decide) .list
    ⟨by decide +kernel, by decide +kernel, by decide +kernel, by decide +kernel, by decide +kernel⟩ (by decide +kernel)

/-- A token that is cut in two where the registered part begins stands in neither part: the text shows it before,
    and no more once the part has its token. -/
theorem splitToken_shown :
    let t := (Table.empty.register .math "x".toList).2
    let a := "LATEXPREV".toList
    let h := "IEWMATH000001".toList
    Reached ["LATEXPREVIEWMATH000001".toList] t ∧ t.issued < 999999 ∧
      (∀ s ∈ [a, h, []], Whole ["LATEXPREVIEWMATH000001".toList] s) ∧
      (∀ x ∈ t.tokens, occurrences x (a ++ (h ++ [])) ≤ 1) ∧
      resolve t (a ++ (h ++ [])) = "x".toList ∧
      resolve (t.register .math h).2 (a ++ ((t.register .math h).1 ++ [])) = "LATEXPREVIEWMATH000001".toList ∧
      resolve (t.register .math h).2 (a ++ ((t.register .math h).1 ++ [])) ≠ resolve t (a ++ (h ++ [])) :=
  ⟨.register .math _ .empty, by decide, by decide +kernel, by decide +kernel, by decide +kernel, by decide +kernel,
    by decide +kernel⟩

end Register

/-! ## Registering one part after another -/

/-- Parts of a text are registered one after another, each token going into the place of its part. -/
inductive Registered (issued₀ : List Text) (t₀ : Table) (s₀ : Text) : List Text → Table → Text → Prop
  | start : Registered issued₀ t₀ s₀ issued₀ t₀ s₀
  | register {issued : List Text} {t : Table} {a h b : Text} (kind : Kind)
      (hr : Registered issued₀ t₀ s₀ issued t (a ++ (h ++ b))) (hlt : t.issued < 999999) (hparts : Parts issued a h b)
      (honce : ∀ x ∈ t.tokens, occurrences x (a ++ (h ++ b)) ≤ 1) :
      Registered issued₀ t₀ s₀ (issued ++ [(t.register kind h).1]) (t.register kind h).2 (a ++ ((t.register kind h).1 ++ b))

/-- However many parts are registered, inner ones first, the text shows what it showed. -/
theorem Registered.resolve_eq {issued₀ issued : List Text} {t₀ t : Table} {s₀ s : Text}
    (h : Registered issued₀ t₀ s₀ issued t s) (h₀ : Reached issued₀ t₀) : Reached issued t ∧ resolve t s = resolve t₀ s₀ := by
  induction h with
  | start => exact ⟨h₀, rfl⟩
  | register kind _ hlt hparts honce ih =>
    obtain ⟨ht, heq⟩ := ih
    exact ⟨.register kind _ ht, (resolve_register_parts ht hlt kind hparts honce).trans heq⟩

end Galley.Block
