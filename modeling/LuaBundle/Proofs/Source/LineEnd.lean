import LuaBundle.Proofs.Source.Steps

/-! A line feed ends what stands before it: the lexemes of a text in which nothing is left open stay
as they are, whatever follows the line feed, but for a comment at its end: that takes the line
feed. -/

namespace LuaBundle

open Text

namespace Text

theorem dropWhile_append_of_ne_nil {p : UInt16 → Bool} {t : Text} (h : t.dropWhile p ≠ [])
    (more : Text) :
    (t ++ more).takeWhile p = t.takeWhile p ∧ (t ++ more).dropWhile p = t.dropWhile p ++ more := by
  have hsplit := List.takeWhile_append_dropWhile (p := p) (l := t)
  have hlength : (t.takeWhile p).length ≠ t.length := by
    intro he
    have := congrArg List.length hsplit
    rw [List.length_append, he] at this
    exact h (List.length_eq_zero_iff.mp (by omega))
  rw [List.takeWhile_append, if_neg hlength, List.dropWhile_append, if_neg (by simpa using h)]
  exact ⟨rfl, rfl⟩

/-- A unit that is not passed over ends a run, whatever follows it. -/
theorem takeWhile_append_stop {p : UInt16 → Bool} {v : UInt16} (hv : p v = false) (t more : Text) :
    (t ++ v :: more).takeWhile p = t.takeWhile p ∧
      (t ++ v :: more).dropWhile p = t.dropWhile p ++ v :: more := by
  induction t with
  | nil => simp [hv]
  | cons u t ih =>
    obtain ⟨htake, hdrop⟩ := ih
    simp only [List.cons_append, List.takeWhile_cons, List.dropWhile_cons, htake, hdrop]
    split <;> simp

/-- What is found stays the first occurrence when text follows. -/
theorem cut?_append {needle t before after : Text} (h : cut? needle t = some (before, after))
    (more : Text) : cut? needle (t ++ more) = some (before, after ++ more) := by
  induction t generalizing before after with
  | nil =>
    simp only [cut?] at h
    split at h
    · rename_i hempty
      obtain rfl := List.isEmpty_iff.mp hempty
      obtain ⟨rfl, rfl⟩ := Prod.mk.inj (Option.some.inj h)
      cases more <;> rfl
    · cases h
  | cons u t ih =>
    simp only [cut?] at h
    split at h
    · rename_i hfound
      obtain ⟨tail, htail⟩ := List.isPrefixOf_iff_prefix.mp hfound
      obtain ⟨rfl, rfl⟩ := Prod.mk.inj (Option.some.inj h)
      have hmore : needle.isPrefixOf (u :: (t ++ more)) = true :=
        List.isPrefixOf_iff_prefix.mpr ⟨tail ++ more, by rw [← List.append_assoc, htail]; rfl⟩
      rw [List.cons_append, cut?, if_pos hmore, ← List.cons_append, ← htail, List.append_assoc,
        List.drop_left, List.drop_left]
    · rename_i hfound
      obtain ⟨⟨b, a⟩, hrest, he⟩ := Option.map_eq_some_iff.mp h
      obtain ⟨rfl, rfl⟩ := Prod.mk.inj he
      -- The occurrence lies in `t`, so that one that starts at `u` would lie in `u :: t`.
      have hlength : needle.length ≤ (u :: t).length := by
        have := congrArg List.length (cut?_eq_some hrest)
        simp only [List.length_append, List.length_cons] at this ⊢
        omega
      have hmore : ¬needle.isPrefixOf (u :: (t ++ more)) = true := by
        rw [List.isPrefixOf_iff_prefix] at hfound ⊢
        exact fun hprefix => hfound
          (List.prefix_of_prefix_length_le hprefix (List.prefix_append (u :: t) more) hlength)
      rw [List.cons_append, cut?, if_neg hmore, ih hrest]
      rfl

end Text

namespace Escape

/-- What an escape takes, where something is left of the text. -/
theorem skip_append_of_ne_nil {t : Text} (h : (skip t).2 ≠ []) (more : Text) :
    skip (t ++ more) = ((skip t).1, (skip t).2 ++ more) := by
  cases t with
  | nil => exact absurd rfl h
  | cons u t =>
    by_cases hz : u = unit 'z'
    · have hskip : ∀ t, skip (u :: t) = (u :: t.takeWhile isBlank, t.dropWhile isBlank) :=
        fun t => if_pos hz
      rw [hskip] at h
      obtain ⟨htake, hdrop⟩ := dropWhile_append_of_ne_nil h more
      rw [List.cons_append, hskip, hskip, htake, hdrop]
    · by_cases hbreak : isBreak u = true
      · cases t with
        | nil =>
          rw [show skip [u] = ([u], []) from (if_neg hz).trans (if_pos hbreak)] at h
          exact absurd rfl h
        | cons v t =>
          have hskip : ∀ t, skip (u :: v :: t) =
              if isBreak v && v != u then ([u, v], t) else ([u], v :: t) :=
            fun t => (if_neg hz).trans (if_pos hbreak)
          rw [List.cons_append, List.cons_append, hskip, hskip]
          split <;> rfl
      · have hskip : ∀ t, skip (u :: t) = ([u], t) := fun t =>
          (if_neg hz).trans (if_neg hbreak)
        rw [List.cons_append, hskip, hskip]

end Escape

namespace Lexeme

theorem openingLevel?_append (t more : Text) :
    openingLevel? (t ++ lineFeed :: more) =
      (openingLevel? t).map fun (level, rest) => (level, rest ++ lineFeed :: more) := by
  cases t with
  | nil => rfl
  | cons u t =>
    simp only [List.cons_append, openingLevel?]
    split
    · rw [(takeWhile_append_stop (by decide) _ _).1, (takeWhile_append_stop (by decide) _ _).2]
      cases t.dropWhile (· == equals) with
      | nil => rfl
      | cons v after =>
        simp only [List.cons_append]
        split <;> rfl
    · rfl

theorem quotedBody?_append {q : UInt16} {t body after : Text}
    (h : quotedBody? q t = some (body, after)) (more : Text) :
    quotedBody? q (t ++ more) = some (body, after ++ more) := by
  fun_induction quotedBody? q t generalizing body after with
  | case1 => cases h
  | case2 rest =>
    obtain ⟨rfl, rfl⟩ := Prod.mk.inj (Option.some.inj h)
    rw [List.cons_append, quotedBody?, if_pos rfl]
  | case3 => cases h
  | case4 rest b a hb hq hfeed ih =>
    obtain ⟨rfl, rfl⟩ := Prod.mk.inj (Option.some.inj h)
    have hne : (Escape.skip rest).2 ≠ [] := by
      intro hnil
      rw [hnil, quotedBody?] at hb
      cases hb
    rw [List.cons_append, quotedBody?, if_neg hq, if_neg hfeed, if_pos rfl,
      Escape.skip_append_of_ne_nil hne, ih hb]
  | case5 => cases h
  | case6 u rest hq hfeed hslash b a hb ih =>
    obtain ⟨rfl, rfl⟩ := Prod.mk.inj (Option.some.inj h)
    rw [List.cons_append, quotedBody?, if_neg hq, if_neg hfeed, if_neg hslash, ih hb]
  | case7 => cases h

theorem readComment_closed {t rest body after : Text} {level : Nat}
    (hlevel : openingLevel? t = some (level, rest))
    (hcut : cut? (closing level) rest = some (body, after)) :
    readComment t = (comment (dash :: dash :: opening level ++ body ++ closing level), after) := by
  rw [readComment, hlevel]
  simp only [hcut]

theorem readComment_open {t rest : Text} {level : Nat}
    (hlevel : openingLevel? t = some (level, rest)) (hcut : cut? (closing level) rest = none) :
    readComment t = (openComment (dash :: dash :: t), []) := by
  rw [readComment, hlevel]
  simp only [hcut]

theorem readComment_line {t : Text} (hlevel : openingLevel? t = none) :
    readComment t =
      (comment (dash :: dash :: t.takeWhile (· != lineFeed) ++
        (t.dropWhile (· != lineFeed)).take 1), (t.dropWhile (· != lineFeed)).tail) := by
  rw [readComment, hlevel]
  cases hdrop : t.dropWhile (· != lineFeed) with
  | nil =>
    have htake := List.takeWhile_append_dropWhile (p := (· != lineFeed)) (l := t)
    rw [hdrop, List.append_nil] at htake
    simp [htake]
  | cons v after => simp

theorem readComment_lineFeed {t : Text} (h : (readComment t).1.isOpen = false) :
    (∀ more, readComment (t ++ lineFeed :: more) =
        ((readComment t).1, (readComment t).2 ++ lineFeed :: more)) ∨
      ∃ c, readComment t = (.comment c, []) ∧
        ∀ more, readComment (t ++ lineFeed :: more) = (.comment (c ++ [lineFeed]), more) := by
  cases hlevel : openingLevel? t with
  | some found =>
    obtain ⟨level, rest⟩ := found
    cases hcut : cut? (closing level) rest with
    | none =>
      rw [readComment_open hlevel hcut] at h
      cases h
    | some found =>
      refine .inl fun more => ?_
      have hlevel' : openingLevel? (t ++ lineFeed :: more) =
          some (level, rest ++ lineFeed :: more) := by rw [openingLevel?_append, hlevel]; rfl
      rw [readComment_closed hlevel hcut, readComment_closed hlevel' (cut?_append hcut _)]
  | none =>
    have hline : ∀ more, readComment (t ++ lineFeed :: more) =
        (comment (dash :: dash :: t.takeWhile (· != lineFeed) ++
          (t.dropWhile (· != lineFeed) ++ lineFeed :: more).take 1),
          (t.dropWhile (· != lineFeed) ++ lineFeed :: more).tail) := by
      intro more
      obtain ⟨htake, hdrop⟩ :=
        @takeWhile_append_stop (· != lineFeed) lineFeed (by decide) t more
      rw [readComment_line (by rw [openingLevel?_append, hlevel]; rfl), htake, hdrop]
    rw [readComment_line hlevel]
    cases hdrop : t.dropWhile (· != lineFeed) with
    | nil => exact .inr ⟨_, rfl, fun more => by simp [hline, hdrop]⟩
    | cons v after => exact .inl fun more => by simp [hline, hdrop]

section Quotes

variable {u : UInt16} (hblank : ¬isBlank u = true) (hword : ¬isWordUnit u = true)

include hblank hword

theorem read_quote (hquote : u = doubleQuote ∨ u = singleQuote) (rest : Text) :
    read u rest = match quotedBody? u rest with
      | some (body, after) => (quoted u body, after)
      | none => (openString (u :: rest), []) :=
  ((if_neg hblank).trans (if_neg hword)).trans (if_pos hquote)

theorem read_bracket (hquote : ¬(u = doubleQuote ∨ u = singleQuote)) (rest : Text)
    (hcomment : ¬(u = dash ∧ rest.head? = some dash)) :
    read u rest = match openingLevel? (u :: rest) with
      | some (level, inner) =>
        match cut? (closing level) inner with
        | some (body, after) => (bracketed level body, after)
        | none => (openString (u :: rest), [])
      | none => (symbol u, rest) :=
  (((if_neg hblank).trans (if_neg hword)).trans (if_neg hquote)).trans (if_neg hcomment)

end Quotes

/-- A lexeme is read the same where a line feed follows, or it is a comment at the end of the text
and takes the line feed. -/
theorem read_lineFeed {u : UInt16} {rest : Text} (h : (read u rest).1.isOpen = false) :
    (∀ more, read u (rest ++ lineFeed :: more) =
        ((read u rest).1, (read u rest).2 ++ lineFeed :: more)) ∨
      ∃ c, read u rest = (.comment c, []) ∧
        ∀ more, read u (rest ++ lineFeed :: more) = (.comment (c ++ [lineFeed]), more) := by
  by_cases hblank : isBlank u = true
  · have hread : ∀ rest, read u rest = (blank u, rest) := fun rest => if_pos hblank
    exact .inl fun more => by rw [hread, hread]
  by_cases hword : isWordUnit u = true
  · refine .inl fun more => ?_
    obtain ⟨htake, hdrop⟩ := @takeWhile_append_stop isWordUnit lineFeed (by decide) rest more
    rw [read_word hword, read_word hword, htake, hdrop]
  by_cases hquote : u = doubleQuote ∨ u = singleQuote
  · have hread := read_quote hblank hword hquote
    cases hbody : quotedBody? u rest with
    | none =>
      rw [hread, hbody] at h
      cases h
    | some found => exact .inl fun more => by rw [hread, hread, quotedBody?_append hbody, hbody]
  by_cases hcomment : u = dash ∧ rest.head? = some dash
  · obtain ⟨rfl, hhead⟩ := hcomment
    obtain ⟨t, rfl⟩ := List.head?_eq_some_iff.mp hhead
    have hread : ∀ t, read dash (dash :: t) = readComment t := fun t => rfl
    simp only [List.cons_append, hread] at h ⊢
    exact readComment_lineFeed h
  have hsymbol := read_bracket hblank hword hquote
  have hmore : ∀ more, ¬(u = dash ∧ (rest ++ lineFeed :: more).head? = some dash) := by
    rintro more ⟨rfl, hhead⟩
    cases rest with
    | nil => cases hhead
    | cons v rest => exact hcomment ⟨rfl, hhead⟩
  refine .inl fun more => ?_
  rw [hsymbol _ (hmore more), hsymbol _ hcomment, ← List.cons_append, openingLevel?_append]
  rw [hsymbol _ hcomment] at h
  cases hlevel : openingLevel? (u :: rest) with
  | none => rfl
  | some found =>
    obtain ⟨level, inner⟩ := found
    rw [hlevel] at h
    cases hcut : cut? (closing level) inner with
    | none =>
      simp only [hcut] at h
      cases h
    | some found => simp only [Option.map_some, cut?_append hcut, hcut]

end Lexeme

open Lexeme in
/-- The lexemes of a text in which nothing is left open and of which a line feed ends the last
line. -/
theorem exists_lexemes_lineFeed {t : Text} (h : ∀ l ∈ lexemes t, l.isOpen = false) :
    ∃ ls gap gap', lexemes t = ls ++ gap ∧ (∀ l ∈ gap, l.isGap = true) ∧
      (∀ l ∈ gap', l.isGap = true) ∧
      ∀ more, lexemes (t ++ lineFeed :: more) = ls ++ (gap' ++ lexemes more) := by
  have hfeed : ∀ more, lexemes (lineFeed :: more) = .blank lineFeed :: lexemes more := by
    intro more
    rw [lexemes]
    rfl
  fun_induction lexemes t with
  | case1 =>
    exact ⟨[], [], [.blank lineFeed], rfl, by simp, by simp [isGap], fun more => hfeed more⟩
  | case2 u rest ih =>
    obtain ⟨hl, hrest⟩ := List.forall_mem_cons.mp h
    rcases read_lineFeed hl with hsame | ⟨c, halone, hcomment⟩
    · obtain ⟨ls, gap, gap', hls, hgap, hgap', hmore⟩ := ih hrest
      refine ⟨(read u rest).1 :: ls, gap, gap', by rw [hls]; rfl, hgap, hgap', fun more => ?_⟩
      rw [List.cons_append, lexemes, hsame more, hmore more]
      rfl
    · refine ⟨[], [.comment c], [.comment (c ++ [lineFeed])], ?_, by simp [isGap], by simp [isGap],
        fun more => ?_⟩
      · rw [halone, lexemes]
        rfl
      · rw [List.cons_append, lexemes, hcomment more]
        rfl

end LuaBundle
