import LuaBundle.Proofs.Text.Returns

/-! The lexemes of a source whose lines end in a carriage return and a line feed. Each lexeme of the
source with line feeds alone is there, with a carriage return before every line feed in it: the two
breaks go together wherever a break has a meaning of its own. -/

namespace LuaBundle

open Text

namespace Escape

variable {t : Text}

theorem isBreak_eq_false {u : UInt16} (hfeed : u ≠ lineFeed) (hreturn : u ≠ carriageReturn) :
    isBreak u = false := by
  simp [isBreak, hfeed, hreturn]

/-- Without carriage returns, nothing belongs to a line feed. -/
theorem other_break_eq_false {v : UInt16} (h : v ≠ carriageReturn) :
    (isBreak v && v != lineFeed) = false := by
  by_cases hv : v = lineFeed
  · simp [hv]
  · rw [isBreak_eq_false hv h, Bool.false_and]

theorem afterBreak_lineFeed (h : carriageReturn ∉ t) : afterBreak lineFeed t = t := by
  cases t with
  | nil => rfl
  | cons v t =>
    rw [List.mem_cons, not_or] at h
    rw [afterBreak, other_break_eq_false (Ne.symm h.1), if_neg Bool.false_ne_true]

theorem skip_withReturns (h : carriageReturn ∉ t) :
    skip (withReturns t) = (withReturns (skip t).1, withReturns (skip t).2) := by
  cases t with
  | nil => rfl
  | cons u t =>
    rw [List.mem_cons, not_or] at h
    by_cases hu : u = lineFeed
    · subst hu
      have hreturn : skip (carriageReturn :: lineFeed :: withReturns t) =
          ([carriageReturn, lineFeed], withReturns t) := rfl
      rw [withReturns_lineFeed, hreturn]
      cases t with
      | nil => rfl
      | cons v t =>
        have hv := fun he => h.2 (List.mem_cons.mpr (.inl he))
        rw [Lexeme.skip_break (by decide), other_break_eq_false (Ne.symm hv),
          if_neg Bool.false_ne_true]
        rfl
    · rw [withReturns_cons hu]
      by_cases hz : u = unit 'z'
      · obtain ⟨htake, hdrop⟩ := takeWhile_withReturns (p := isBlank) (by decide) t
        rw [Lexeme.skip_z hz, Lexeme.skip_z hz, withReturns_cons hu, htake, hdrop]
      · have hbreak := isBreak_eq_false hu (Ne.symm h.1)
        rw [Lexeme.skip_unit hz hbreak, Lexeme.skip_unit hz hbreak, withReturns_cons hu]
        rfl

theorem notMem_skip (h : carriageReturn ∉ t) : carriageReturn ∉ (skip t).2 := fun hmem =>
  h (skip_append t ▸ List.mem_append_right _ hmem)

theorem hex?_withReturns (t : Text) :
    hex? (withReturns t) = (hex? t).map fun (value, after) => (value, withReturns after) := by
  have hdigit : isHexDigit lineFeed = false ∧ isHexDigit carriageReturn = false := by decide
  cases t with
  | nil => rfl
  | cons a t =>
    by_cases ha : a = lineFeed
    · subst ha
      cases t <;> simp [hex?, hdigit]
    · rw [withReturns_cons ha]
      cases t with
      | nil => rfl
      | cons b t =>
        by_cases hb : b = lineFeed
        · subst hb
          simp [hex?, hdigit]
        · rw [withReturns_cons hb, hex?, hex?]
          split <;> rfl

theorem codePoint?_eq_none {u : UInt16} (h : u ≠ leftBrace) (t : Text) :
    codePoint? (u :: t) = none := by
  rw [codePoint?]
  split
  · exact if_neg fun hu => h hu.1
  · rfl

theorem codePoint?_withReturns (t : Text) : codePoint? (withReturns t) =
    (codePoint? t).map fun (value, after) => (value, withReturns after) := by
  cases t with
  | nil => rfl
  | cons u t =>
    by_cases hu : u = leftBrace
    · have hfeed : u ≠ lineFeed := hu ▸ by decide
      obtain ⟨-, hdrop⟩ := takeWhile_withReturns (p := isHexDigit) (by decide) t
      rw [withReturns_cons hfeed, codePoint?, codePoint?, hdrop,
        takeWhile_withReturns_eq (by decide) (by decide)]
      cases t.dropWhile isHexDigit with
      | nil => rfl
      | cons v after =>
        by_cases hv : v = lineFeed
        · have hnot : lineFeed ≠ rightBrace ∧ carriageReturn ≠ rightBrace := by decide
          subst hv
          simp only [withReturns_lineFeed, hnot.1, hnot.2, false_and, and_false, if_false]
          rfl
        · simp only [withReturns_cons hv]
          split <;> rfl
    · rw [codePoint?_eq_none hu]
      by_cases hfeed : u = lineFeed
      · subst hfeed
        exact codePoint?_eq_none (by decide) _
      · rw [withReturns_cons hfeed]
        exact codePoint?_eq_none hu _

theorem decimal?_withReturns (t : Text) : decimal? (withReturns t) =
    (decimal? t).map fun (value, after) => (value, withReturns after) := by
  have hsame : ((withReturns t).take 3).takeWhile isDigit = (t.take 3).takeWhile isDigit := by
    rw [← List.take_takeWhile, takeWhile_withReturns_eq (by decide) (by decide),
      List.take_takeWhile]
  have hdrop : (withReturns t).drop ((t.take 3).takeWhile isDigit).length =
      withReturns (t.drop ((t.take 3).takeWhile isDigit).length) := by
    have hstart : (t.take 3).takeWhile isDigit <+: t :=
      (List.takeWhile_prefix _).trans (List.take_prefix 3 t)
    have hfeed : lineFeed ∉ (t.take 3).takeWhile isDigit := fun hmem =>
      absurd (List.all_eq_true.mp List.all_takeWhile _ hmem) (by decide)
    obtain ⟨after, hafter⟩ := hstart
    generalize (t.take 3).takeWhile isDigit = digits at *
    rw [← hafter, withReturns_append, withReturns_eq_self hfeed, List.drop_left, List.drop_left]
  simp only [decimal?, hsame, hdrop]
  split <;> rfl

theorem read?_withReturns (h : carriageReturn ∉ t) :
    read? (withReturns t) = (read? t).map fun (value, after) => (value, withReturns after) := by
  cases t with
  | nil => rfl
  | cons u t =>
    rw [List.mem_cons, not_or] at h
    by_cases hu : u = lineFeed
    · subst hu
      -- Both breaks together are one escape, with the value of a line feed.
      have hreturn : read? (carriageReturn :: lineFeed :: withReturns t) =
          some ([lineFeed], withReturns t) := rfl
      have hfeed : read? (lineFeed :: t) = some ([lineFeed], afterBreak lineFeed t) := rfl
      rw [withReturns_lineFeed, hreturn, hfeed, afterBreak_lineFeed h.2]
      rfl
    · have hdecimal := decimal?_withReturns (u :: t)
      rw [withReturns_cons hu] at hdecimal ⊢
      rw [read?, read?, isBreak_eq_false hu (Ne.symm h.1)]
      cases letter? u with
      | some v => rfl
      | none =>
        simp only [if_neg Bool.false_ne_true]
        split
        · rw [(takeWhile_withReturns (p := isAsciiBlank) (by decide) t).2]
          rfl
        · split
          · exact hex?_withReturns t
          · split
            · exact codePoint?_withReturns t
            · exact hdecimal

theorem suffix_afterBreak (u : UInt16) (t : Text) : afterBreak u t <:+ t := by
  cases t with
  | nil => exact List.suffix_rfl
  | cons v t =>
    rw [afterBreak]
    split
    · exact List.suffix_cons v t
    · exact List.suffix_rfl

theorem suffix_hex? {value after : Text} (h : hex? t = some (value, after)) : after <:+ t := by
  unfold hex? at h
  split at h
  · rename_i a b rest
    split at h
    · obtain ⟨_, rfl⟩ := Prod.mk.inj (Option.some.inj h)
      exact ⟨[a, b], rfl⟩
    · cases h
  · cases h

theorem suffix_codePoint? {value after : Text} (h : codePoint? t = some (value, after)) :
    after <:+ t := by
  cases t with
  | nil => cases h
  | cons u t =>
    rw [codePoint?] at h
    split at h
    · rename_i v rest hdrop
      split at h
      · obtain ⟨_, rfl⟩ := Prod.mk.inj (Option.some.inj h)
        have hrest : v :: rest <:+ t := hdrop ▸ List.dropWhile_suffix isHexDigit
        exact (List.suffix_cons v rest).trans (hrest.trans (List.suffix_cons u t))
      · cases h
    · cases h

/-- An escape leaves what stands after it. -/
theorem suffix_read? {value after : Text} (h : read? t = some (value, after)) : after <:+ t := by
  cases t with
  | nil => cases h
  | cons u t =>
    have htail : ∀ {s : Text}, s <:+ t → s <:+ u :: t := fun hs => hs.trans (List.suffix_cons u t)
    rw [read?] at h
    split at h
    · obtain ⟨_, rfl⟩ := Prod.mk.inj (Option.some.inj h)
      exact List.suffix_cons u t
    · split at h
      · obtain ⟨_, rfl⟩ := Prod.mk.inj (Option.some.inj h)
        exact htail (suffix_afterBreak u t)
      · split at h
        · obtain ⟨_, rfl⟩ := Prod.mk.inj (Option.some.inj h)
          exact htail (List.dropWhile_suffix isAsciiBlank)
        · split at h
          · exact htail (suffix_hex? h)
          · split at h
            · exact htail (suffix_codePoint? h)
            · simp only [decimal?] at h
              split at h
              · obtain ⟨_, rfl⟩ := Prod.mk.inj (Option.some.inj h)
                exact List.drop_suffix _ _
              · cases h

/-- A backslash that starts no escape stands for itself. -/
theorem decode_backslash (h : read? t = none) :
    decode (backslash :: t) = backslash :: decode t := by
  rw [decode, if_pos rfl]
  split
  · rename_i hread
    rw [h] at hread
    cases hread
  · rfl

/-- The content of a string, up to the carriage returns in it. -/
theorem decode_withReturns (h : carriageReturn ∉ t) :
    withoutReturns (decode (withReturns t)) = withoutReturns (decode t) := by
  have hslash : backslash ≠ lineFeed ∧ backslash ≠ carriageReturn := by decide
  fun_induction decode t with
  | case1 => rw [withReturns_nil, decode]
  | case2 rest value after hread ih =>
    rw [List.mem_cons, not_or] at h
    have hread' := read?_withReturns h.2
    rw [hread] at hread'
    rw [withReturns_cons hslash.1, Quoted.decode_escape hread', withoutReturns_append,
      withoutReturns_append, ih fun hmem => h.2 ((suffix_read? hread).subset hmem)]
  | case3 rest hread ih =>
    rw [List.mem_cons, not_or] at h
    have hread' := read?_withReturns h.2
    rw [hread] at hread'
    rw [withReturns_cons hslash.1, decode_backslash hread', withoutReturns_cons hslash.2,
      withoutReturns_cons hslash.2, ih h.2]
  | case4 u rest hu ih =>
    rw [List.mem_cons, not_or] at h
    by_cases hfeed : u = lineFeed
    · subst hfeed
      rw [withReturns_lineFeed, Quoted.decode_cons hslash.2.symm, Quoted.decode_cons hu]
      exact congrArg (lineFeed :: ·) (ih h.2)
    · rw [withReturns_cons hfeed, Quoted.decode_cons hu, withoutReturns_cons (Ne.symm h.1),
        withoutReturns_cons (Ne.symm h.1), ih h.2]

end Escape

namespace Lexeme

/-- The lexeme with carriage returns in its text. -/
def withReturns : Lexeme → Lexeme
  | comment c => comment (Text.withReturns c)
  | quoted q body => quoted q (Text.withReturns body)
  | bracketed level body => bracketed level (Text.withReturns body)
  | openComment t => openComment (Text.withReturns t)
  | openString t => openString (Text.withReturns t)
  | l => l

/-- What becomes of a lexeme: a line feed between lexemes is two blanks then. -/
def returned : Lexeme → List Lexeme
  | blank u => (Text.withReturns [u]).map blank
  | l => [l.withReturns]

variable {t : Text}

theorem openingLevel?_withReturns (t : Text) :
    openingLevel? (Text.withReturns t) =
      (openingLevel? t).map fun (level, rest) => (level, Text.withReturns rest) := by
  have hnot : lineFeed ≠ leftBracket ∧ carriageReturn ≠ leftBracket := by decide
  cases t with
  | nil => rfl
  | cons u t =>
    by_cases hu : u = lineFeed
    · subst hu
      rw [withReturns_lineFeed, openingLevel?, openingLevel?, if_neg hnot.2, if_neg hnot.1]
      rfl
    · obtain ⟨-, hdrop⟩ := takeWhile_withReturns (p := (· == equals)) (by decide) t
      rw [withReturns_cons hu, openingLevel?, openingLevel?, hdrop,
        takeWhile_withReturns_eq (by decide) (by decide)]
      split
      · cases t.dropWhile (· == equals) with
        | nil => rfl
        | cons v after =>
          by_cases hv : v = lineFeed
          · subst hv
            simp only [withReturns_lineFeed, if_neg hnot.2, if_neg hnot.1]
            rfl
          · simp only [withReturns_cons hv]
            split <;> rfl
      · rfl

theorem breaks_notMem (level : Nat) : ∀ u ∈ [lineFeed, carriageReturn],
    u ∉ opening level ∧ u ∉ closing level := by
  intro u hu
  have hne : u ≠ leftBracket ∧ u ≠ equals ∧ u ≠ rightBracket := by
    rcases List.mem_pair.mp hu with rfl | rfl <;> decide
  obtain ⟨hleft, hequals, hright⟩ := hne
  simp [opening, closing, List.mem_replicate, hleft, hequals, hright]

/-- A quoted string ends at the same quote. -/
theorem quotedBody?_withReturns {q : UInt16} (hfeed : q ≠ lineFeed) (hreturn : q ≠ carriageReturn)
    (h : carriageReturn ∉ t) : quotedBody? q (Text.withReturns t) = (quotedBody? q t).map
      fun (body, after) => (Text.withReturns body, Text.withReturns after) := by
  have hslash : backslash ≠ lineFeed ∧ carriageReturn ≠ lineFeed ∧ carriageReturn ≠ backslash := by
    decide
  fun_induction quotedBody? q t with
  | case1 =>
    rw [withReturns_nil, quotedBody?]
    rfl
  | case2 rest =>
    rw [withReturns_cons hfeed, quotedBody?, if_pos rfl]
    rfl
  | case3 rest hq =>
    -- The carriage return is one more unit of the body; the line feed after it ends the search.
    have hnone : quotedBody? q (lineFeed :: Text.withReturns rest) = none := by
      rw [quotedBody?, if_neg hq, if_pos rfl]
    rw [withReturns_lineFeed, quotedBody?, if_neg hreturn.symm, if_neg hslash.2.1,
      if_neg hslash.2.2, hnone]
    rfl
  | case4 rest b a hb hq _ ih =>
    rw [List.mem_cons, not_or] at h
    rw [withReturns_cons hslash.1, quotedBody?, if_neg hq, if_neg hslash.1, if_pos rfl,
      Escape.skip_withReturns h.2, ih (Escape.notMem_skip h.2), hb]
    simp only [Option.map_some, List.cons_append, withReturns_cons hslash.1, withReturns_append]
  | case5 rest hb hq _ ih =>
    rw [List.mem_cons, not_or] at h
    rw [withReturns_cons hslash.1, quotedBody?, if_neg hq, if_neg hslash.1, if_pos rfl,
      Escape.skip_withReturns h.2, ih (Escape.notMem_skip h.2), hb]
    rfl
  | case6 u rest hq hu hback b a hb ih =>
    rw [List.mem_cons, not_or] at h
    rw [withReturns_cons hu, Quoted.quotedBody?_cons hq hu hback, ih h.2, hb]
    simp only [Option.map_some, withReturns_cons hu]
  | case7 u rest hq hu hback hb ih =>
    rw [List.mem_cons, not_or] at h
    rw [withReturns_cons hu, Quoted.quotedBody?_cons hq hu hback, ih h.2, hb]
    rfl

theorem cut?_closing_withReturns (level : Nat) (t : Text) :
    cut? (closing level) (Text.withReturns t) = (cut? (closing level) t).map
      fun (before, after) => (Text.withReturns before, Text.withReturns after) :=
  cut?_withReturns (closing_ne_nil level) (breaks_notMem level _ (by simp)).2
    (breaks_notMem level _ (by simp)).2 t

theorem withReturns_bracketed (level : Nat) (body : Text) :
    Text.withReturns (opening level ++ body ++ closing level) =
      opening level ++ Text.withReturns body ++ closing level := by
  obtain ⟨hopening, hclosing⟩ := breaks_notMem level lineFeed (by simp)
  rw [withReturns_append, withReturns_append, withReturns_eq_self hopening,
    withReturns_eq_self hclosing]

theorem withReturns_dashes (t : Text) :
    Text.withReturns (dash :: dash :: t) = dash :: dash :: Text.withReturns t := rfl

theorem readComment_withReturns (t : Text) : readComment (Text.withReturns t) =
    ((readComment t).1.withReturns, Text.withReturns (readComment t).2) := by
  have hopening := openingLevel?_withReturns t
  cases hlevel : openingLevel? t with
  | some found =>
    obtain ⟨level, rest⟩ := found
    have hcut := cut?_closing_withReturns level rest
    rw [hlevel] at hopening
    cases hbody : cut? (closing level) rest with
    | some found =>
      rw [hbody] at hcut
      rw [readComment_closed hopening hcut, readComment_closed hlevel hbody]
      simp only [withReturns, List.cons_append, withReturns_dashes, withReturns_bracketed]
    | none =>
      rw [hbody] at hcut
      rw [readComment_open hopening hcut, readComment_open hlevel hbody]
      rfl
  | none =>
    rw [hlevel] at hopening
    have hline := lineFeed_notMem_firstLine t
    rw [readComment_line hopening, readComment_line hlevel]
    rcases eq_firstLine_or t with ⟨hdrop, htext⟩ | ⟨rest, hdrop, htext⟩
    · have hnone : lineFeed ∉ t := htext ▸ hline
      have htake : t.takeWhile (· != lineFeed) = t := htext.symm
      rw [withReturns_eq_self hnone, hdrop, htake]
      simp only [withReturns, List.take_nil, List.append_nil, List.tail_nil, withReturns_dashes,
        withReturns_eq_self hnone, withReturns_nil]
    · obtain ⟨htake, hdrop'⟩ :=
        takeWhile_line (lineFeed_notMem_concat hline) (Text.withReturns rest)
      have hreturns : Text.withReturns t =
          firstLine t ++ [carriageReturn] ++ lineFeed :: Text.withReturns rest := by
        conv_lhs => rw [htext, withReturns_line hline]
      have hfirst : t.takeWhile (· != lineFeed) = firstLine t := rfl
      rw [hreturns, htake, hdrop', hfirst, hdrop]
      simp only [withReturns, List.take_succ_cons, List.take_zero, List.tail_cons,
        List.cons_append, withReturns_dashes, withReturns_line hline, withReturns_nil]

/-- Any other lexeme than a line feed is read the same, with carriage returns in its text. -/
theorem read_withReturns {u : UInt16} (hu : u ≠ lineFeed) (h : carriageReturn ∉ t) :
    read u (Text.withReturns t) = ((read u t).1.withReturns, Text.withReturns (read u t).2) := by
  by_cases hblank : isBlank u = true
  · rw [read, read, if_pos hblank, if_pos hblank]
    rfl
  by_cases hword : isWordUnit u = true
  · rw [read_word hword, read_word hword, takeWhile_withReturns_eq (by decide) (by decide),
      (takeWhile_withReturns (p := isWordUnit) (by decide) t).2]
    rfl
  by_cases hquote : u = doubleQuote ∨ u = singleQuote
  · have hreturn : u ≠ carriageReturn := by rcases hquote with rfl | rfl <;> decide
    rw [read_quote hblank hword hquote, read_quote hblank hword hquote,
      quotedBody?_withReturns hu hreturn h]
    cases quotedBody? u t with
    | some found => rfl
    | none => simp only [Option.map_none, withReturns, withReturns_cons hu, withReturns_nil]
  by_cases hcomment : u = dash ∧ t.head? = some dash
  · obtain ⟨rfl, hhead⟩ := hcomment
    obtain ⟨rest, rfl⟩ := List.head?_eq_some_iff.mp hhead
    exact readComment_withReturns rest
  have hcomment' : ¬(u = dash ∧ (Text.withReturns t).head? = some dash) := by
    rwa [head?_withReturns (by decide) (by decide)]
  have hopening := openingLevel?_withReturns (u :: t)
  rw [withReturns_cons hu] at hopening
  rw [read_bracket hblank hword hquote _ hcomment', read_bracket hblank hword hquote _ hcomment,
    hopening]
  cases openingLevel? (u :: t) with
  | none =>
    rfl
  | some found =>
    obtain ⟨level, inner⟩ := found
    simp only [Option.map_some, cut?_closing_withReturns]
    cases cut? (closing level) inner with
    | none => simp only [Option.map_none, withReturns, withReturns_cons hu, withReturns_nil]
    | some found => rfl

end Lexeme

open Lexeme

theorem Lexeme.returned_eq {l : Lexeme} (h : l ≠ .blank lineFeed) :
    l.returned = [l.withReturns] := by
  cases l with
  | blank u =>
    have hu : u ≠ lineFeed := fun he => h (congrArg Lexeme.blank he)
    rw [returned, withReturns_cons hu]
    rfl
  | _ => rfl

theorem Lexeme.read_ne_lineFeed {u : UInt16} (hu : u ≠ lineFeed) (t : Text) :
    (Lexeme.read u t).1 ≠ .blank lineFeed := by
  intro he
  have htext := Lexeme.read_text u t
  rw [he] at htext
  exact hu (List.cons.inj htext).1.symm

/-- Each lexeme of a text is there with carriage returns. -/
theorem lexemes_withReturns {t : Text} (h : carriageReturn ∉ t) :
    lexemes (withReturns t) = (lexemes t).flatMap returned := by
  have hblank : ∀ u ∈ [lineFeed, carriageReturn], ∀ s,
      lexemes (u :: s) = .blank u :: lexemes s := by
    have hbreaks : ∀ u ∈ [lineFeed, carriageReturn], isBlank u = true :=
      List.all_eq_true.mp (by decide)
    exact fun u hu s => @lexemes_formed (.blank u) s (hbreaks u hu) trivial
  fun_induction lexemes t with
  | case1 =>
    rw [withReturns_nil, lexemes]
    rfl
  | case2 u rest ih =>
    have hleft : carriageReturn ∉ (Lexeme.read u rest).2 := fun hmem =>
      h (Lexeme.read_text u rest ▸ List.mem_append_right _ hmem)
    rw [List.mem_cons, not_or] at h
    rw [List.flatMap_cons, ← ih hleft]
    by_cases hu : u = lineFeed
    · subst hu
      rw [withReturns_lineFeed, hblank _ (by simp), hblank _ (by simp)]
      rfl
    · rw [withReturns_cons hu, lexemes, read_withReturns hu h.2,
        returned_eq (read_ne_lineFeed hu rest), List.singleton_append]

/-- A lexeme without carriage returns of its own, of which those that are put in make the text. -/
def Lexeme.Returns (l : Lexeme) : Prop :=
  carriageReturn ∉ l.text ∧ l.returned.flatMap Lexeme.text = Text.withReturns l.text

theorem returns_of_mem_lexemes {t : Text} (h : carriageReturn ∉ t) :
    ∀ l ∈ lexemes t, l.Returns := by
  fun_induction lexemes t with
  | case1 => simp
  | case2 u rest ih =>
    have htext := Lexeme.read_text u rest
    have hparts : carriageReturn ∉ (Lexeme.read u rest).1.text ∧
        carriageReturn ∉ (Lexeme.read u rest).2 := by
      rw [← not_or, ← List.mem_append, htext]
      exact h
    refine List.forall_mem_cons.mpr ⟨⟨hparts.1, ?_⟩, ih hparts.2⟩
    rw [List.mem_cons, not_or] at h
    by_cases hu : u = lineFeed
    · subst hu
      rfl
    · have hreturns := Lexeme.read_text u (Text.withReturns rest)
      rw [read_withReturns hu h.2, ← withReturns_cons hu, ← htext, withReturns_append] at hreturns
      rw [returned_eq (read_ne_lineFeed hu rest), List.flatMap_singleton]
      exact List.append_cancel_right hreturns

end LuaBundle
