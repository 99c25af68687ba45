import Galley.Proofs.MarkedSteps
import Galley.Proofs.SettingAside
/-!
# Formatting comes to an end

Formatting sets pieces aside under marks and restores them at last. No step cuts through a mark or copies one
(`lays_rewrite`), and every piece begins and ends like an element (`seals_rewrite`). So a text that holds no mark of
its own, with formulas that are rendered without one, is formatted without a fault (`format_ok`).
-/

namespace Galley.Inline

open Stash (Marked Laid Lays Sealed isMarkChar)

/-! ## Arguments -/

section Arguments

variable {ok : Char → Bool} {u : Multiset Nat} {s rest : Text}

/-- A group and what follows it share the marks of the text. -/
theorem marked_group {d : Delimiter} {inside : Text} (hs : Marked ok u s) (h : Group.read? d s = some (inside, rest)) :
    ∃ v w, v + w ≤ u ∧ Marked ok v inside ∧ Marked ok w rest := by
  have hopener : isMarkChar d.opener = false := by cases d <;> decide
  have hcloser : isMarkChar d.closer = false := by cases d <;> decide
  obtain ⟨gap, rfl⟩ := Group.read?_eq h
  obtain ⟨x, y, hxy, -, -, hy⟩ := hs.split hopener
  obtain ⟨v, w, hvw, hv, -, hw⟩ := hy.split hcloser
  exact ⟨v, w, hvw.trans ((Multiset.le_add_left y x).trans hxy), hv, hw⟩

theorem marked_braces {n : Nat} {parts : List Text} (hs : Marked ok u s)
    (h : Arguments.braces n s = .ok (some (parts, rest))) :
    ∃ us w, us.sum + w ≤ u ∧ List.Forall₂ (Marked ok) us parts ∧ Marked ok w rest := by
  induction n generalizing s u parts rest with
  | zero =>
    cases h
    exact ⟨[], u, by simp, .nil, hs⟩
  | succ n ih =>
    simp only [Arguments.braces] at h
    obtain ⟨o, hr, h⟩ := bind_eq_ok h
    cases o with
    | none => cases h
    | some p =>
      obtain ⟨inside, after⟩ := p
      obtain ⟨m, hm, h⟩ := bind_eq_ok h
      cases m with
      | none => cases h
      | some q =>
        cases h
        obtain ⟨v, w, hvw, hv, hw⟩ := marked_group hs (Group.read_eq_read? hr)
        obtain ⟨us, w', hsum, hus, hw'⟩ := ih hw hm
        refine ⟨v :: us, w', ?_, .cons hv hus, hw'⟩
        rw [List.sum_cons, add_assoc]
        exact (add_le_add_right hsum v).trans hvw

/-- Arguments and what follows them share the marks of the text. -/
theorem marked_arguments {count : Nat} {takesOption : Bool} {args : Arguments} (hs : Marked ok u s)
    (h : Arguments.read? count takesOption s = some (args, rest)) :
    ∃ v w x, v + w + x ≤ u ∧ Marked ok v args.first ∧ Marked ok w args.second ∧ Marked ok x rest := by
  have hfirst {us : List (Multiset Nat)} {parts : List Text} (h : List.Forall₂ (Marked ok) us parts) :
      ∃ v w, v + w ≤ us.sum ∧ Marked ok v (parts.headD []) ∧ Marked ok w ((parts.drop 1).headD []) := by
    cases h with
    | nil => exact ⟨0, 0, by simp, .nil, .nil⟩
    | cons ha h =>
      cases h with
      | nil => exact ⟨_, 0, by simp, ha, .nil⟩
      | cons hb h => exact ⟨_, _, (Multiset.le_add_right _ _).trans_eq (add_assoc _ _ _), ha, hb⟩
  have hbraces {s' : Text} {u' : Multiset Nat} (hs' : Marked ok u' s') (hle : u' ≤ u) {parts : List Text}
      (hb : Arguments.braces count s' = .ok (some (parts, rest))) : ∃ v w x, v + w + x ≤ u ∧
        Marked ok v (parts.headD []) ∧ Marked ok w ((parts.drop 1).headD []) ∧ Marked ok x rest := by
    obtain ⟨us, x, hsum, hus, hx⟩ := marked_braces hs' hb
    obtain ⟨v, w, hvw, hv, hw⟩ := hfirst hus
    exact ⟨v, w, x, ((add_le_add_left hvw x).trans hsum).trans hle, hv, hw, hx⟩
  have hok : Arguments.read count takesOption s = .ok (some (args, rest)) := by
    rw [Arguments.read?] at h
    split at h
    · rename_i o ho
      rw [ho, h]
    · cases h
  -- an option in front takes its share of the marks and is in no argument
  cases takesOption with
  | false =>
    simp only [Arguments.read, Bool.false_eq_true, if_false, pure_bind] at hok
    obtain ⟨q, hb, hok⟩ := bind_eq_ok hok
    cases q with
    | none => cases hok
    | some q =>
      cases hok
      exact hbraces hs le_rfl hb
  | true =>
    simp only [Arguments.read, if_true] at hok
    obtain ⟨bracket, hr, hok⟩ := bind_eq_ok hok
    obtain ⟨q, hb, hok⟩ := bind_eq_ok hok
    cases q with
    | none => cases hok
    | some q =>
      cases hok
      cases bracket with
      | none => exact hbraces hs le_rfl hb
      | some p =>
        obtain ⟨v, w, hvw, -, hw⟩ := marked_group hs (Group.read_eq_read? hr)
        exact hbraces hw ((Multiset.le_add_left w v).trans hvw) hb

end Arguments

/-! ## Commands -/

section Commands

variable {ok ok' : Char → Bool} {u : Multiset Nat} {s : Text}

/-- What a command holds of the marks of its text: its arguments share them, and a command without arguments keeps
    its source. -/
def Holds (ok : Char → Bool) (u : Multiset Nat) (args : Option Arguments) (source : Text) : Prop :=
  match args with
  | some a => ∃ v w, v + w ≤ u ∧ Marked ok v a.first ∧ Marked ok w a.second
  | none => Marked ok u source

/-- A command's name is of ASCII and does not end like a mark. -/
structure Named (name : Text) : Prop where
  ascii : name.all (fun c => c.toNat < 128) = true
  last : endsUnmarked name = true

instance (name : Text) : Decidable (Named name) := decidable_of_iff (_ ∧ _) ⟨fun h => ⟨h.1, h.2⟩, fun h => ⟨h.1, h.2⟩⟩

theorem laid_command (hok : Alphabet ok) {name : Text} (hname : Named name) (count : Nat) (takesOption : Bool)
    (hs : Marked ok u s) : Laid ok (Holds ok) u (Text.cut (Command.withArguments name count takesOption) s) := by
  obtain ⟨c, hlast, hc⟩ := exists_last hname.last
  refine Stash.laid_cut hok.unopened (fun before c s hc => ?_) (fun u _ before s a rest hs hr => ?_) hs
  · rw [Command.withArguments, command_markChar hc, Option.map_none]
  · obtain ⟨r, hcommand, he⟩ := Option.map_eq_some_iff.1 hr
    have hbehind := Behind.command hlast hc hcommand
    have htail := hs.behind hbehind
    obtain rfl := Command.after?_eq hcommand
    cases hargs : Arguments.read? count takesOption r with
    | none =>
      rw [hargs] at he
      cases he
      have hsource : Text.upTo ('\\' :: (name ++ rest)) rest = '\\' :: name := Text.upTo_append_rest ('\\' :: name) rest
      refine ⟨hbehind.suffix, 0, u, by simp, ?_, htail⟩
      rw [hsource]
      exact .of_within (hok.text (by simpa using hname.ascii))
    | some p =>
      obtain ⟨args, rest'⟩ := p
      rw [hargs] at he
      cases he
      obtain ⟨v, w, x, hle, hv, hw, hx⟩ := marked_arguments htail hargs
      exact ⟨(Arguments.read?_parts hargs).1.trans hbehind.suffix, v + w, x, hle, ⟨v, w, le_rfl, hv, hw⟩, hx⟩

variable (hok : Alphabet ok)

include hok

theorem marked_command {name : Text} (hname : Named name) {count : Nat} {render : Arguments → Text}
    (hrender : ∀ v a, Marked ok v a.first → Marked ok v (render a)) (hs : Marked ok u s) (takesOption : Bool) :
    Marked ok u (Command.replace name count render s takesOption) := by
  refine (laid_command hok hname count takesOption hs).flatMap (fun _ h => h) (fun _ => rfl)
    fun v args source h => ?_
  cases args with
  | none => exact h
  | some a =>
    obtain ⟨w, x, hle, hw, -⟩ := h
    exact hrender v a (hw.mono ((Multiset.le_add_right w x).trans hle))

theorem lays_command {name : Text} (hname : Named name) {count : Nat} {render : Arguments → StateM Stash Text}
    (hrender : ∀ v w a, Marked ok v a.first → Marked ok w a.second → Lays ok' (v + w) (render a) (Marked ok))
    (hs : Marked ok u s) : Lays ok' u (Command.replaceM name count render s) (Marked ok) := by
  refine (Lays.mapM (laid_command hok hname count false hs) (fun _ => rfl) fun v args source h => ?_).bind
    fun v ts hts => .pure hts
  cases args with
  | none => exact .pure h
  | some a =>
    obtain ⟨w, x, hle, hw, hx⟩ := h
    exact (hrender w x a hw hx).mono hle

theorem lays_rewriteReferences (hs : Marked ok u s) : Lays ok u (rewriteReferences s) (Marked ok) := by
  have hround (v : Multiset Nat) (a : Arguments) (ha : Marked ok v a.first) : Marked ok v ("(" ++ Text.strip a.first ++ ")") :=
    .wrap (hok.text (by decide)) (hok.text (by decide)) ha.strip
  have hsquare (v : Multiset Nat) (a : Arguments) (ha : Marked ok v a.first) : Marked ok v ("[" ++ Text.strip a.first ++ "]") :=
    .wrap (hok.text (by decide)) (hok.text (by decide)) ha.strip
  refine lays_command hok (by decide) (fun v w a ha _ => ?_) ?_
  · exact (Lays.put (.wrap (hok.text (by decide)) (hok.text (by decide)) ha)).mono (Multiset.le_add_right v w)
  refine marked_command hok (by decide) (fun _ _ _ => .nil) ?_ false
  refine marked_command hok (by decide) hsquare ?_ true
  refine marked_command hok (by decide) hsquare ?_ true
  refine marked_command hok (by decide) hsquare ?_ true
  refine marked_command hok (by decide) hsquare ?_ false
  refine marked_command hok (by decide) hround ?_ false
  exact marked_command hok (by decide) (fun v a ha => .wrap (hok.text (by decide)) (hok.text (by decide)) ha) hs false

theorem marked_linkMarkup {v : Multiset Nat} {url label : Text} (hurl : Marked ok u url) (hlabel : Marked ok v label) :
    Marked ok (u + v) (linkMarkup url label) := by
  have hquoted := marked_replace hok '"' [] "%22" (by decide) rfl (by decide) (by decide) hurl
  have hopening := Marked.wrap (a := "<a href=\"") (b := "\" target=\"_blank\" rel=\"noopener noreferrer\">")
    (hok.text (by decide)) (hok.text (by decide)) hquoted
  have hclosing : Marked ok 0 ("</a>" : Text) := .of_within (hok.text (by decide))
  have hwhole := (hopening.append hlabel).append hclosing
  rw [add_zero] at hwhole
  exact hwhole

theorem lays_rewriteCommands (depth : Nat) (hs : Marked ok u s) : Lays ok u (rewriteCommands depth s) (Marked ok) := by
  induction depth generalizing u s with
  | zero => exact .pure hs
  | succ depth ih =>
    unfold rewriteCommands
    refine (lays_rewriteReferences hok hs).bind fun v s hs => ?_
    refine (lays_command hok (by decide) (fun v w a hurl hlabel => ?_) hs).bind fun v s hs => ?_
    · refine (ih hlabel).bind_keeping (x := v) (by rw [add_comm]) fun w label hlabel => ?_
      split
      · rw [add_comm]
        exact .put (marked_linkMarkup hok hurl.strip hlabel)
      · exact .pure (hlabel.mono (Multiset.le_add_right w v))
    · have hwrappers : ∀ w ∈ wrappers, Named w.1 ∧ w.2.1.all (fun c => c.toNat < 128) = true ∧
          w.2.2.all (fun c => c.toNat < 128) = true := by decide
      refine Lays.foldlM (fun x hx v s hs => ?_) hs
      obtain ⟨hname, hopening, hclosing⟩ := hwrappers x hx
      refine lays_command hok hname (fun v w a ha _ => ?_) hs
      refine ((ih ha).bind fun v t ht => .pure ?_).mono (Multiset.le_add_right v w)
      exact .wrap (hok.text hopening) (hok.text hclosing) ht

end Commands

/-! ## Every piece is sealed -/

/-- The work sets sealed pieces aside only. -/
def Seals {α : Type} (work : StateM Stash α) : Prop := ∀ p : Stash, (∀ x ∈ p, Sealed x) → ∀ x ∈ (work.run p).2, Sealed x

theorem sealed_around {a b : Text} (ha : a.head? = some '<') (hb : b.getLast? = some '>') (s : Text) : Sealed (a ++ s ++ b) := by
  obtain ⟨t, rfl⟩ := List.getLast?_eq_some_iff.1 hb
  cases a with
  | nil => cases ha
  | cons c a =>
    cases ha
    exact ⟨a ++ s ++ t, by simp⟩

namespace Seals

variable {α β : Type} {work : StateM Stash α}

theorem pure (a : α) : Seals (pure a) := fun _ hp => hp

theorem bind {next : α → StateM Stash β} (h : Seals work) (hnext : ∀ a, Seals (next a)) : Seals (work >>= next) :=
  fun p hp => hnext _ _ (h p hp)

theorem put {piece : Text} (h : Sealed piece) : Seals (Stash.put piece) := by
  intro p hp x hx
  rcases List.mem_append.1 hx with hx | hx
  · exact hp x hx
  · rwa [List.mem_singleton.1 hx]

theorem mapM {l : List α} {f : α → StateM Stash β} (hf : ∀ x ∈ l, Seals (f x)) : Seals (l.mapM f) := by
  induction l with
  | nil => exact .pure []
  | cons x l ih =>
    rw [List.mapM_cons]
    exact (hf x List.mem_cons_self).bind fun _ =>
      (ih fun y hy => hf y (List.mem_cons_of_mem x hy)).bind fun _ => .pure _

theorem foldlM {l : List α} {f : β → α → StateM Stash β} (hf : ∀ b x, Seals (f b x)) (b : β) : Seals (l.foldlM f b) := by
  induction l generalizing b with
  | nil => exact .pure b
  | cons x l ih =>
    rw [List.foldlM_cons]
    exact (hf b x).bind ih

theorem command {name : Text} {count : Nat} {render : Arguments → StateM Stash Text} (h : ∀ a, Seals (render a)) (s : Text) :
    Seals (Command.replaceM name count render s) := by
  refine (Seals.mapM fun p _ => ?_).bind fun _ => .pure _
  split
  · exact h _
  · exact .pure _

end Seals

theorem seals_rewriteReferences (s : Text) : Seals (rewriteReferences s) :=
  .command (fun a => .put (sealed_around (a := "<code>") (b := "</code>") (by decide) (by decide) a.first)) _

theorem sealed_linkMarkup (url label : Text) : Sealed (linkMarkup url label) := by
  have h := sealed_around (a := "<a href=\"") (b := "</a>") (by decide) (by decide)
    (url.replace "\"" "%22" ++ "\" target=\"_blank\" rel=\"noopener noreferrer\">" ++ label)
  rwa [← List.append_assoc, ← List.append_assoc] at h

theorem seals_rewriteCommands (depth : Nat) (s : Text) : Seals (rewriteCommands depth s) := by
  induction depth generalizing s with
  | zero => exact .pure s
  | succ depth ih =>
    unfold rewriteCommands
    refine (seals_rewriteReferences s).bind fun s => ?_
    refine (Seals.command (fun a => (ih a.second).bind fun label => ?_) s).bind fun s => ?_
    · split
      · exact .put (sealed_linkMarkup _ _)
      · exact .pure label
    · exact .foldlM (fun s w => .command (fun a => (ih a.first).bind fun _ => .pure _) s) s

theorem sealed_render (settings : Settings) (engine : Formula.Engine) (f : Text) :
    Sealed (Formula.render settings engine f .inline).html := by
  simp only [Formula.render]
  split
  · rename_i message _
    have h := sealed_around (a := "<span class=\"math-error\" style=\"color:red;\" title=\"") (b := "\">Math Error</span>")
      (by decide) (by decide) (Html.escapeQuoted message)
    exact h
  · rename_i mathml _
    exact sealed_around (a := "<span class=\"math-inline\">") (b := "</span>") (by decide) (by decide) (Formula.sanitize mathml)

theorem seals_rewrite {render : Text → Text} (hrender : ∀ f, Sealed (render f)) (s : Text) : Seals (rewrite render s) := by
  refine Seals.bind ?_ fun s => (seals_rewriteCommands _ _).bind fun _ => .pure _
  refine (Seals.mapM fun p _ => ?_).bind fun _ => .pure _
  split
  · exact .pure _
  · exact .put (hrender _)

/-! ## The whole -/

section Whole

variable {ok : Char → Bool} {s : Text}

/-- Formulas of the characters are rendered in the characters. -/
def Unmarking (ok : Char → Bool) (render : Text → Text) : Prop := ∀ f, Within ok f → Within ok (render f)

/-- What the converter returns, once it holds only MathML, is of the characters, and so is its message when it fails. -/
def Converts (ok : Char → Bool) (engine : Formula.Engine) : Prop :=
  ∀ formula display, match engine formula display with
    | .ok mathml => Within ok (Formula.sanitize mathml)
    | .error message => Within ok message

theorem unmarking_render {settings : Settings} {engine : Formula.Engine} (hok : Alphabet ok) (hengine : Converts ok engine) :
    Unmarking ok fun f => (Formula.render settings engine f .inline).html := by
  intro source _
  have hresult := hengine (Formula.clean ((Formula.unwrap? source).getD source)) .inline
  simp only [Formula.render]
  split
  · rename_i message he
    rw [he] at hresult
    have hmessage := Within.escapeQuoted (fun c hc _ => hok.ascii c hc) hresult
    exact ((hok.text (by decide)).append hmessage).append (hok.text (by decide))
  · rename_i mathml he
    rw [he] at hresult
    exact ((hok.text (by decide)).append hresult).append (hok.text (by decide))

theorem lays_stashFormulas {render : Text → Text} (hok : Alphabet ok) (hr : Unmarking ok render) (hs : Within ok s) :
    Lays (guarded ok) 0 (stashFormulas render s) (Marked ok) := by
  have hlaid : Laid ok (fun u f _ => u = 0 ∧ Within ok f) 0 (Text.cut formula s) := by
    refine Stash.laid_cut hok.unopened neat_formula.heeds (fun u hu before t f rest ht h => ?_) (.of_within hs)
    obtain rfl : u = 0 := Multiset.le_zero.1 hu
    have hbehind := neat_formula.behind before t f rest h
    exact ⟨hbehind.suffix, 0, 0, le_rfl, ⟨rfl, ht.within.subset (formula_subset h)⟩, ht.behind hbehind⟩
  refine (Lays.mapM hlaid (fun _ => rfl) fun v f _ h => ?_).bind fun v ts hts => .pure hts
  obtain ⟨rfl, hf⟩ := h
  exact .put (.of_within (within_guarded (hr f hf)))

theorem lays_rewrite {render : Text → Text} (hok : Alphabet ok) (hr : Unmarking ok render) (hs : Within ok s) :
    Lays (guarded ok) 0 (rewrite render s) (Marked ok) := by
  refine (lays_stashFormulas hok hr hs).bind fun u t ht => ?_
  have hplain := marked_typography hok.guarded (marked_escape hok.guarded (marked_protectSpecials hok ht))
  refine (lays_rewriteCommands hok.guarded _ hplain).bind fun v t ht => .pure ?_
  exact marked_restoreSpecials hok (marked_replaceSymbols hok.guarded ht)

/-- Shown text and pieces set aside, with the marks in them: no number stands in two marks. -/
structure Tidy (ok : Char → Bool) (pieces : Stash) (shown : Text) : Prop where
  sealed : ∀ piece ∈ pieces, Sealed piece
  shares : ∃ v w, Marked ok v shown ∧ Stash.Pieces (guarded ok) 0 w pieces ∧ v + w ≤ (List.range pieces.length : List Nat)

theorem tidy_rewrite {render : Text → Text} (hok : Alphabet ok) (hr : Unmarking ok render)
    (hrender : ∀ f, Sealed (render f)) (hs : Within ok s) :
    Tidy ok ((rewrite render s).run []).2 ((rewrite render s).run []).1 := by
  have hseal := seals_rewrite hrender s [] (by simp)
  obtain ⟨shown, pieces, v, w, hrun, hshown, hpieces, hle⟩ := lays_rewrite hok hr hs [] (by simp)
  rw [hrun] at hseal ⊢
  rw [zero_add] at hle
  refine ⟨hseal, v, w, hshown, hpieces, ?_⟩
  rw [List.range_eq_range']
  exact hle

namespace Tidy

variable {pieces : Stash} {shown : Text}

/-- Every mark that is met was given out. -/
theorem exists_ofNat (hok : Alphabet ok) (h : Tidy ok pieces shown) {d : Text} (hd : Stash.Reached pieces shown d) :
    ∃ k < pieces.length, d = Text.ofNat k := by
  obtain ⟨v, w, hshown, hpieces, hle⟩ := h.shares
  have hmarks {ok' : Char → Bool} (hok' : Alphabet ok') {u : Multiset Nat} {t e : Text} (ht : Marked ok' u t)
      (hu : u ≤ (List.range pieces.length : List Nat)) (he : e ∈ Stash.marks t) : ∃ k < pieces.length, e = Text.ofNat k := by
    obtain ⟨heq, hnumbers⟩ := ht.marks_eq hok'.unopened
    rw [heq] at he
    obtain ⟨k, hk, rfl⟩ := List.mem_map.1 he
    have hmem : k ∈ (List.range pieces.length : Multiset Nat) := Multiset.mem_of_le (hnumbers.trans hu) hk
    exact ⟨k, List.mem_range.1 hmem, rfl⟩
  obtain ⟨n, hn⟩ := hd
  cases n with
  | zero => exact hmarks hok hshown ((Multiset.le_add_right v w).trans hle) hn
  | succ n =>
    rw [Stash.marksAfter_succ] at hn
    obtain ⟨e, -, he⟩ := List.mem_flatMap.1 hn
    unfold Stash.content at he
    cases hpiece : pieces[Text.digitsValue e]? with
    | none =>
      rw [hpiece] at he
      cases he
    | some piece =>
      rw [hpiece] at he
      obtain ⟨u, hu, hmarked, -⟩ := hpieces.getElem? hpiece
      exact hmarks hok.guarded hmarked (hu.trans ((Multiset.le_add_left w v).trans hle)) he

theorem readable (hok : Alphabet ok) (h : Tidy ok pieces shown) {d : Text} (hd : Stash.Reached pieces shown d) :
    Stash.Readable pieces d := by
  obtain ⟨k, hk, rfl⟩ := h.exists_ofNat hok hd
  exact Stash.readable_ofNat hk

/-- A piece names pieces before it only, so no piece leads back to itself. -/
theorem lt_of_names (hok : Alphabet ok) (h : Tidy ok pieces shown) {i j : Nat} (hij : Stash.Names pieces i j) : j < i := by
  obtain ⟨v, w, -, hpieces, -⟩ := h.shares
  obtain ⟨piece, hpiece, hj⟩ := hij
  obtain ⟨u, -, hmarked, hlt⟩ := hpieces.getElem? hpiece
  have hmem := Multiset.mem_of_le (hmarked.marks_eq hok.guarded.unopened).2 hj
  have := hlt j hmem
  omega

/-- Restoring comes to an end. -/
theorem restore_ok (hok : Alphabet ok) (h : Tidy ok pieces shown) : ∃ t, Stash.restore pieces shown = .ok t := by
  have hacyclic {i j : Nat} (hij : Relation.TransGen (Stash.Names pieces) i j) : j < i := by
    induction hij with
    | single hij => exact h.lt_of_names hok hij
    | tail _ hij ih => exact (h.lt_of_names hok hij).trans ih
  -- the numbers go down along the pieces, so there is no way back; and what is met can be read, so nothing fails
  obtain ⟨r, hr⟩ := (Stash.exists_restores_iff h.sealed).2 (.inr fun d _ hloop => absurd (hacyclic hloop) (Nat.lt_irrefl _))
  cases r with
  | ok t => exact ⟨t, ((Stash.restores_iff h.sealed).1 hr).1⟩
  | error fault =>
    obtain ⟨d, hd, hnamed⟩ := hr.exists_of_error h.sealed
    obtain ⟨piece, hpiece⟩ := h.readable hok hd
    rw [hnamed] at hpiece
    cases hpiece

/-- No piece is restored twice. -/
theorem nodup_met (hok : Alphabet ok) (h : Tidy ok pieces shown) (rounds : Nat) : (Stash.met pieces shown rounds).Nodup := by
  obtain ⟨v, w, hshown, hpieces, hle⟩ := h.shares
  refine Stash.nodup_met ?_ rounds
  rw [← Multiset.coe_add]
  exact (add_le_add (hshown.marks_eq hok.unopened).2 (hpieces.numbers_le hok.guarded.unopened)).trans hle

theorem mem_shown (h : Tidy ok pieces shown) {c : Char} (hc : c ∈ shown) : ok c = true ∨ isMarkChar c = true := by
  obtain ⟨_, _, hshown, -⟩ := h.shares
  exact hshown.mem hc

/-- A restored text is made of the characters, and of guards of specials. -/
theorem within (hok : Alphabet ok) (h : Tidy ok pieces shown) {t : Text} (hr : Stash.Restores pieces shown (.ok t)) :
    Within (guarded ok) t := by
  obtain ⟨v, w, hshown, hpieces, -⟩ := h.shares
  refine hr.within hok.guarded.unopened (fun piece hp => ?_) ⟨v, hshown.imp fun _ => guarded_of⟩
  obtain ⟨i, hi⟩ := List.mem_iff_getElem?.1 hp
  obtain ⟨u, -, hmarked, -⟩ := hpieces.getElem? hi
  exact ⟨u, hmarked⟩

end Tidy

variable {settings : Settings} {engine : Formula.Engine}

/-- The text as it is rewritten, and the pieces set aside for it. -/
def rewritten (settings : Settings) (engine : Formula.Engine) (s : Text) : Text × Stash :=
  (rewrite (fun f => (Formula.render settings engine f .inline).html) s).run []

theorem format_eq (settings : Settings) (engine : Formula.Engine) (s : Text) :
    format settings engine s = Stash.restore (rewritten settings engine s).2 (rewritten settings engine s).1 := by
  rw [format, rewritten]
  generalize (rewrite (fun f => (Formula.render settings engine f .inline).html) s).run [] = run
  rfl

theorem sealed_rewritten (settings : Settings) (engine : Formula.Engine) (s : Text) :
    ∀ piece ∈ (rewritten settings engine s).2, Sealed piece :=
  seals_rewrite (sealed_render settings engine) s [] (by simp)

theorem tidy_rewritten (hok : Alphabet ok) (hengine : Converts ok engine) (hs : Within ok s) :
    Tidy ok (rewritten settings engine s).2 (rewritten settings engine s).1 :=
  tidy_rewrite hok (unmarking_render hok hengine) (sealed_render settings engine) hs

/-- A text without a mark is formatted without a fault, if its formulas are rendered without marks. -/
theorem format_ok (hok : Alphabet ok) (hengine : Converts ok engine) (hs : Within ok s) :
    ∃ t, format settings engine s = .ok t := by
  rw [format_eq]
  exact (tidy_rewritten hok hengine hs).restore_ok hok

end Whole

end Galley.Inline
