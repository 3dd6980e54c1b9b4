import QueryTemplate.Compiler
import QueryTemplate.Proofs.Token.Name
import QueryTemplate.Proofs.Query.Qualified
namespace QueryTemplate

open Token Grammar

namespace Text

variable {p : Char → Bool} {q c : Char} {s a b : Text}

theorem guarded_eq_self_iff (hq : q ≠ '\\') : guarded q s = s ↔ q ∉ s := by
  induction s with
  | nil => simp
  | cons c s ih =>
    by_cases hc : c = q
    · subst hc
      rw [guarded_cons_self]
      simp [hq.symm]
    · rw [guarded_cons_of_ne hc]
      simp [ih, Ne.symm hc]

/-- An escaped name has the characters of the name, quotes and backslashes aside. -/
theorem forall_mem_escapeName_iff (hq : p q = false) (hs : p '\\' = false) :
    (∀ c ∈ escapeName q s, p c = false) ↔ ∀ c ∈ s, p c = false := by
  have hg : (∀ c ∈ guarded q s, p c = false) ↔ ∀ c ∈ s, p c = false := by
    induction s with
    | nil => simp
    | cons c s ih =>
      by_cases hc : c = q
      · subst hc
        simp only [guarded_cons_self, List.forall_mem_cons, hq, hs, true_and, ih]
      · simp only [guarded_cons_of_ne hc, List.forall_mem_cons, ih]
  cases hn : isPlainName s with
  | true => rw [escapeName_of_plain q hn]
  | false =>
    rw [escapeName_of_not_plain q hn, List.forall_mem_cons, List.forall_mem_append, hg]
    simp [hq]

theorem attaches_of_isNameChar (h : isNameChar c = true) : Fragment.attaches c = true := by
  simp only [isNameChar, Bool.or_eq_true, decide_eq_true_eq] at h
  rcases h with h | rfl
  · have hlt : c.toNat < 0x80 := by
      have hv : c.val.toNat = c.toNat := rfl
      simp only [Char.isAlphanum, Bool.or_eq_true, isAlpha_iff, Char.isDigit, ge_iff_le,
        Bool.and_eq_true, decide_eq_true_eq, UInt32.le_iff_toNat_le, UInt32.reduceToNat,
        Char.reduceVal, hv] at h
      omega
    simp [Fragment.attaches, isAlphanumeric, hlt, h]
  · rfl

theorem escapeName_last (s : Text) :
    ∀ c ∈ (escapeName '`' s).getLast?, Fragment.attaches c = true := by
  intro c hc
  cases hn : isPlainName s with
  | true =>
    rw [escapeName_of_plain _ hn] at hc
    exact attaches_of_isNameChar ((plainName_chars hn).2 c (List.mem_of_getLast? hc))
  | false =>
    rw [escapeName_of_not_plain _ hn, ← List.cons_append, List.getLast?_concat] at hc
    obtain rfl := Option.some.inj hc
    rfl

end Text

namespace Target

/-- The quotes that a name is taken out of. -/
def isQuote (c : Char) : Bool := c = '`' || c = '"'

variable {n s : Text}

theorem unquote_eq (s : Text) :
    unquote s = ((s.dropWhile isQuote).reverse.dropWhile isQuote).reverse := rfl

theorem unquote_of_stops (h : Text.Stops isQuote s) (h' : Text.Stops isQuote s.reverse) :
    unquote s = s := by
  rw [unquote_eq, Text.dropWhile_of_stops h, Text.dropWhile_of_stops h', List.reverse_reverse]

/-- No quote is left at either end of a name without quotes. -/
theorem stops_unquote (s : Text) :
    Text.Stops isQuote (unquote s) ∧ Text.Stops isQuote (unquote s).reverse := by
  rw [unquote_eq, List.reverse_reverse]
  refine ⟨fun c hc ↦ ?_, Text.stops_dropWhile _ _⟩
  have hpre : ((s.dropWhile isQuote).reverse.dropWhile isQuote).reverse <+:
      s.dropWhile isQuote := by
    rw [← List.reverse_suffix, List.reverse_reverse]
    exact List.dropWhile_suffix _
  obtain ⟨u, hu⟩ := hpre
  refine Text.stops_dropWhile isQuote s c ?_
  rw [← hu, List.head?_append, Option.mem_def.1 hc]
  rfl

theorem unquote_guarded (h : Text.Stops isQuote n) (h' : Text.Stops isQuote n.reverse) :
    unquote ('`' :: (Text.guarded '`' n ++ ['`'])) = Text.guarded '`' n := by
  cases n with
  | nil => rfl
  | cons c s =>
    have hc : isQuote c = false := h c rfl
    have hne : c ≠ '`' := fun e ↦ by simp [e, isQuote] at hc
    have hhead : Text.Stops isQuote (Text.guarded '`' (c :: s) ++ ['`']) := by
      rw [Text.guarded_cons_of_ne hne]
      simpa using hc
    have hlast : Text.Stops isQuote (Text.guarded '`' (c :: s)).reverse := by
      obtain ⟨d, u, hu⟩ : ∃ d u, (c :: s).reverse = d :: u := List.exists_cons_of_ne_nil (by simp)
      have hd : isQuote d = false := h' d (by simp [hu])
      have hne : d ≠ '`' := fun e ↦ by simp [e, isQuote] at hd
      rw [← List.reverse_reverse (c :: s), hu, List.reverse_cons, Text.guarded, List.flatMap_append]
      simpa [hne] using hd
    rw [unquote_eq, List.dropWhile_cons_of_pos rfl, Text.dropWhile_of_stops hhead,
      List.reverse_append, List.reverse_singleton, List.singleton_append,
      List.dropWhile_cons_of_pos rfl, Text.dropWhile_of_stops hlast, List.reverse_reverse]

/-- A name comes back from its quotes if it has no back-quote and no quote at its ends. -/
theorem unquote_escapeName_iff : unquote (Text.escapeName '`' n) = n ↔
    '`' ∉ n ∧ Text.Stops isQuote n ∧ Text.Stops isQuote n.reverse := by
  have hends : unquote (Text.escapeName '`' n) = n →
      Text.Stops isQuote n ∧ Text.Stops isQuote n.reverse := fun h ↦ by
    have := stops_unquote (Text.escapeName '`' n)
    rwa [h] at this
  cases hn : Text.isPlainName n with
  | true =>
    have hname : ∀ c ∈ n, isQuote c = false := by
      intro c hc
      have := (Text.plainName_chars hn).2 c hc
      rw [isQuote, Bool.or_eq_false_iff, decide_eq_false_iff_not, decide_eq_false_iff_not]
      constructor <;> rintro rfl <;> cases this
    have h : Text.Stops isQuote n := fun c hc ↦ hname c (List.mem_of_head? hc)
    have h' : Text.Stops isQuote n.reverse :=
      fun c hc ↦ hname c (List.mem_reverse.1 (List.mem_of_head? hc))
    have hmem : '`' ∉ n := fun hm ↦ by cases hname _ hm
    rw [Text.escapeName_of_plain _ hn]
    exact iff_of_true (unquote_of_stops h h') ⟨hmem, h, h'⟩
  | false =>
    rw [Text.escapeName_of_not_plain _ hn] at hends ⊢
    rw [← Text.guarded_eq_self_iff (by decide : '`' ≠ '\\')]
    constructor
    · intro e
      obtain ⟨h, h'⟩ := hends e
      exact ⟨(unquote_guarded h h').symm.trans e, h, h'⟩
    · rintro ⟨e, h, h'⟩
      rw [unquote_guarded h h', e]

/-- A name that is told from its text: without white space and points, which end it, without a
back-quote, before which a backslash stays, and without a quote at its ends, which is lost. -/
structure Resolvable (n : Text) : Prop where
  space : ∀ c ∈ n, Text.isSpace c = false
  point : '.' ∉ n
  tick : '`' ∉ n
  head : n.head? ≠ some '"'
  last : n.getLast? ≠ some '"'

variable {n database table : Text}

theorem stops_isQuote_iff (h : '`' ∉ n) : Text.Stops isQuote n ↔ n.head? ≠ some '"' := by
  cases n with
  | nil => simp
  | cons c s =>
    have hc : c ≠ '`' := fun e ↦ h (e ▸ List.mem_cons_self)
    simp [isQuote, hc]

theorem resolvable_iff : Resolvable n ↔ (∀ c ∈ Text.escapeName '`' n, Text.isSpace c = false) ∧
    (∀ c ∈ Text.escapeName '`' n, decide (c = '.') = false) ∧
    unquote (Text.escapeName '`' n) = n := by
  rw [Text.forall_mem_escapeName_iff (p := Text.isSpace) rfl rfl,
    Text.forall_mem_escapeName_iff (p := fun c ↦ c = '.') rfl rfl, unquote_escapeName_iff]
  constructor
  · rintro ⟨h₁, h₂, h₃, h₄, h₅⟩
    have h₃' : '`' ∉ n.reverse := by simpa using h₃
    refine ⟨h₁, fun c hc ↦ decide_eq_false fun e ↦ h₂ (e ▸ hc), h₃, (stops_isQuote_iff h₃).2 h₄,
      (stops_isQuote_iff h₃').2 (by simpa using h₅)⟩
  · rintro ⟨h₁, h₂, h₃, h₄, h₅⟩
    have h₃' : '`' ∉ n.reverse := by simpa using h₃
    exact ⟨h₁, fun hm ↦ of_decide_eq_false (h₂ _ hm) rfl, h₃, (stops_isQuote_iff h₃).1 h₄,
      by simpa using (stops_isQuote_iff h₃').1 h₅⟩

theorem mem_of_mem_unquote {s : Text} {c : Char} (h : c ∈ unquote s) : c ∈ s := by
  rw [unquote_eq, List.mem_reverse] at h
  exact (List.dropWhile_suffix _).subset
    (List.mem_reverse.1 ((List.dropWhile_suffix _).subset h))

/-- A reference that is told from any configured names has two parts. -/
theorem parts_of_ofReference {w : Text} (hne : database ≠ [])
    (h : ofReference? [] [] w = some ⟨database, table⟩) :
    ∃ a b, Text.splitBy (· = '.') w = [a, b] ∧ unquote a = database ∧ unquote b = table := by
  rw [ofReference?] at h
  split at h
  · exact absurd (congrArg Target.database (Option.some.inj h)).symm hne
  · split at h
    · rename_i d t e
      obtain ⟨rfl, rfl⟩ := Target.mk.inj (Option.some.inj h)
      obtain ⟨a, s, hs, ha, e⟩ := List.map_eq_cons_iff.1 e
      obtain ⟨b, rfl, hb⟩ := List.map_eq_singleton_iff.1 e
      exact ⟨a, b, hs, ha, hb⟩
    · exact absurd (congrArg Target.database (Option.some.inj h)).symm hne
    · cases h

/-- Names are told from their quoted forms, whatever names are configured, if they can be. -/
theorem ofReference_escaped_iff (hne : database ≠ []) :
    (∀ d t, (Text.words (Text.escapeName '`' database ++ '.' :: Text.escapeName '`' table)).head?.bind
      (ofReference? d t) = some ⟨database, table⟩) ↔ Resolvable database ∧ Resolvable table := by
  have hwhole : (∀ c ∈ Text.escapeName '`' database, Text.isSpace c = false) →
      (∀ c ∈ Text.escapeName '`' table, Text.isSpace c = false) →
      Text.words (Text.escapeName '`' database ++ '.' :: Text.escapeName '`' table) =
        [Text.escapeName '`' database ++ '.' :: Text.escapeName '`' table] := fun h h' ↦
    Text.words_of_no_space
      (List.forall_mem_append.2 ⟨h, List.forall_mem_cons.2 ⟨rfl, h'⟩⟩) (by simp)
  constructor
  · intro h
    obtain ⟨w, hw, hr⟩ := Option.bind_eq_some_iff.1 (h [] [])
    obtain ⟨a, b, hab, ha, hb⟩ := parts_of_ofReference hne hr
    -- both names are parts of the first word, so that there is no other
    have hpart : ∀ x ∈ Text.splitBy (· = '.') w, ∀ c ∈ unquote x, Text.isSpace c = false :=
      fun x hx c hc ↦ Text.isSpace_of_mem_words (List.mem_of_head? hw) c
        (Text.of_mem_splitBy hx c (mem_of_mem_unquote hc)).1
    rw [hab] at hpart
    have hd : ∀ c ∈ database, Text.isSpace c = false := ha ▸ hpart a (by simp)
    have ht : ∀ c ∈ table, Text.isSpace c = false := hb ▸ hpart b (by simp)
    rw [← Text.forall_mem_escapeName_iff (q := '`') (p := Text.isSpace) rfl rfl] at hd ht
    rw [hwhole hd ht] at hw
    obtain rfl := Option.some.inj hw
    obtain ⟨hsa, hsb⟩ := Text.eq_of_splitBy_pair (by simp) hab
    obtain ⟨rfl, hpa⟩ := Text.eq_of_splitBy hsa
    obtain ⟨rfl, hpb⟩ := Text.eq_of_splitBy hsb
    exact ⟨resolvable_iff.2 ⟨hd, hpa, ha⟩, resolvable_iff.2 ⟨ht, hpb, hb⟩⟩
  · rintro ⟨hd, ht⟩ d t
    obtain ⟨hsd, hpd, hud⟩ := resolvable_iff.1 hd
    obtain ⟨hst, hpt, hut⟩ := resolvable_iff.1 ht
    have hne : Text.escapeName '`' database ++ '.' :: Text.escapeName '`' table ≠ placeholder := by
      intro e
      have hm : '.' ∈ placeholder := e ▸ List.mem_append_right _ List.mem_cons_self
      exact absurd hm (by decide)
    rw [hwhole hsd hst, List.head?_cons, Option.bind_some, ofReference?, if_neg hne,
      Text.splitBy_append_cons (by simp), Text.splitBy_of_none hpd, Text.splitBy_of_none hpt]
    simp [hud, hut]

/-- The configured table is found again in a query that reads from it, whatever other one is asked
for, if its names can be told from their text. -/
theorem resolve_tableName_iff {o : Options} {x y : Token} (hne : o.database ≠ [])
    (hx : tokens? (Text.escapeName '`' o.database) = .ok [x]) (nx : x.isName = true)
    (hy : tokens? (Text.escapeName '`' o.table) = .ok [y]) (ny : y.isName = true) :
    (∀ d t, (parse ("SELECT 1 FROM " ++ o.tableName)).map (resolve? · d t) =
      .ok (some ⟨o.database, o.table⟩)) ↔ Resolvable o.database ∧ Resolvable o.table := by
  obtain ⟨hxt, hxl⟩ := tokens?_eq_ok_iff.1 hx
  obtain ⟨hyt, hyl⟩ := tokens?_eq_ok_iff.1 hy
  rw [textOf_cons, textOf_nil, List.append_nil] at hxt hyt
  have htext : o.tableName = x.text ++ '.' :: y.text := by
    rw [Options.tableName, if_neg hne, hxt, hyt]
  have hparse := parse_qualified hxl hyl nx ny (hxt ▸ Text.escapeName_last _)
  rw [← ofReference_escaped_iff hne, htext, hparse, hxt, hyt]
  refine forall_congr' fun d ↦ forall_congr' fun t ↦ ?_
  exact ⟨Except.ok.inj, congrArg Except.ok⟩

theorem resolve_tableName_spaced :
    (∀ d t, (parse "SELECT 1 FROM `my-db`.requests").map (resolve? · d t) =
      .ok (some ⟨"my-db", "requests"⟩)) ∧
    ¬ ∀ d t, (parse "SELECT 1 FROM `my db`.requests").map (resolve? · d t) =
      .ok (some ⟨"my db", "requests"⟩) := by
  have hr : tokens? (Text.escapeName '`' "requests") = .ok [⟨.identifier, "requests"⟩] :=
    tokens?_eq_ok_iff.2 ⟨rfl, by decide +kernel⟩
  have hd : tokens? (Text.escapeName '`' "my-db") = .ok [⟨.string, "`my-db`"⟩] :=
    tokens?_eq_ok_iff.2 ⟨rfl, by decide +kernel⟩
  have hs : tokens? (Text.escapeName '`' "my db") = .ok [⟨.string, "`my db`"⟩] :=
    tokens?_eq_ok_iff.2 ⟨rfl, by decide +kernel⟩
  constructor
  · refine (resolve_tableName_iff (o := { database := "my-db", table := "requests" }) (by decide)
      hd rfl hr rfl).2 ⟨⟨by decide, by decide, by decide, by decide, by decide⟩,
        by decide, by decide, by decide, by decide, by decide⟩
  · intro h
    have := (resolve_tableName_iff (o := { database := "my db", table := "requests" }) (by decide)
      hs rfl hr rfl).1 h
    exact absurd (this.1.space ' ' (by decide)) (by decide)

end Target
end QueryTemplate
