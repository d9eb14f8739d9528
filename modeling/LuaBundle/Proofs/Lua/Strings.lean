import LuaBundle.Proofs.Lua.Piece
import LuaBundle.Proofs.Source.Quoted

/-! Strings between quotes, as Lua reads them and as a scan does that takes one unit after every
backslash. The scan finds the same closing quote: no escape hides one, and what it skips after `\z`
beyond the blanks of Lua stands in the string anyway. -/

namespace LuaBundle.Lua

open Text
open Lexeme (quotedBody?)

/-- The units of an escape after its first one. -/
def isEscapeUnit (u : UInt16) : Bool := isHexDigit u || u == leftBrace || u == rightBrace

theorem isEscapeUnit_of_isHexDigit {u : UInt16} (h : isHexDigit u = true) :
    isEscapeUnit u = true := by
  simp [isEscapeUnit, h]

theorem take_length_takeWhile (p : UInt16 → Bool) (t : Text) :
    t.take (t.takeWhile p).length = t.takeWhile p :=
  (List.prefix_iff_eq_take.mp (List.takeWhile_prefix p)).symm

theorem drop_length_takeWhile (p : UInt16 → Bool) (t : Text) :
    t.drop (t.takeWhile p).length = t.dropWhile p := by
  have hsplit := List.takeWhile_append_dropWhile (p := p) (l := t)
  have := List.take_append_drop (t.takeWhile p).length t
  rw [take_length_takeWhile] at this
  exact List.append_cancel_left (this.trans hsplit.symm)

theorem codePointLength?_cases {t : Text} {n : Nat} (h : codePointLength? t = some n) :
    ∃ more rest, t = more ++ rest ∧ n = more.length ∧ ∀ v ∈ more, isEscapeUnit v = true := by
  cases t with
  | nil => cases h
  | cons u rest =>
    simp only [codePointLength?] at h
    split at h
    · rename_i hcond
      obtain ⟨rfl, hclose, _, _⟩ := hcond
      have hsplit := List.takeWhile_append_dropWhile (p := isHexDigit) (l := rest)
      rw [drop_length_takeWhile] at hclose
      obtain ⟨after, hafter⟩ : ∃ after, rest.dropWhile isHexDigit = rightBrace :: after := by
        cases hdrop : rest.dropWhile isHexDigit with
        | nil => simp [hdrop] at hclose
        | cons v after => exact ⟨after, by simpa [hdrop] using hclose⟩
      rw [hafter] at hsplit
      refine ⟨leftBrace :: (rest.takeWhile isHexDigit ++ [rightBrace]), after, ?_, ?_, ?_⟩
      · simp [hsplit]
      · simpa using (Option.some.inj h).symm
      · intro v hv
        rcases List.mem_cons.mp hv with rfl | hv
        · decide
        · rcases List.mem_append.mp hv with hv | hv
          · exact isEscapeUnit_of_isHexDigit (List.all_eq_true.mp List.all_takeWhile v hv)
          · obtain rfl := List.mem_singleton.mp hv
            decide
    · cases h

/-- An escape takes the blanks after a `z`, or a unit and digits and braces. -/
theorem escapeLength?_cases {t : Text} {n : Nat} (h : escapeLength? t = some n) :
    (∃ rest, t = unit 'z' :: rest ∧ n = 1 + (rest.takeWhile Escape.isAsciiBlank).length) ∨
      ∃ u more rest, t = u :: (more ++ rest) ∧ n = 1 + more.length ∧ u ≠ unit 'z' ∧
        u ≠ carriageReturn ∧ ∀ v ∈ more, isEscapeUnit v = true := by
  cases t with
  | nil => cases h
  | cons u rest =>
    simp only [escapeLength?] at h
    split at h
    · rename_i hz
      exact .inl ⟨rest, by rw [hz], (Option.some.inj h).symm⟩
    · rename_i hz
      right
      split at h
      · rename_i hx
        split at h
        · rename_i hdigits
          refine ⟨u, rest.take 2, rest.drop 2, by rw [List.take_append_drop], ?_, hz, ?_, ?_⟩
          · rw [hdigits.1]
            exact (Option.some.inj h).symm
          · rw [hx]
            decide
          · exact fun v hv => isEscapeUnit_of_isHexDigit (List.all_eq_true.mp hdigits.2 v hv)
        · cases h
      · split at h
        · rename_i hu
          obtain ⟨k, hk, rfl⟩ := Option.map_eq_some_iff.mp h
          obtain ⟨more, after, hrest, hlength, hunits⟩ := codePointLength?_cases hk
          refine ⟨u, more, after, by rw [hrest], by rw [hlength], hz, ?_, hunits⟩
          rw [hu]
          decide
        · split at h
          · rename_i hdigit
            split at h
            · have hrun : ((u :: rest).take 3).takeWhile isDigit =
                  u :: (rest.take 2).takeWhile isDigit := by simp [hdigit]
              have hprefix : (rest.take 2).takeWhile isDigit <+: rest :=
                (List.takeWhile_prefix isDigit).trans (List.take_prefix 2 rest)
              obtain ⟨after, hafter⟩ := hprefix
              refine ⟨u, (rest.take 2).takeWhile isDigit, after, by rw [hafter], ?_, hz, ?_, ?_⟩
              · rw [hrun] at h
                simpa [Nat.add_comm] using (Option.some.inj h).symm
              · rintro rfl
                exact absurd hdigit (by decide)
              · intro v hv
                have hv' : isDigit v = true := List.all_eq_true.mp List.all_takeWhile v hv
                exact isEscapeUnit_of_isHexDigit (by simp [isHexDigit, hv'])
            · cases h
          · split at h
            · rename_i hsimple
              refine ⟨u, [], rest, rfl, (Option.some.inj h).symm, hz, ?_, by simp⟩
              rintro rfl
              exact absurd hsimple (by decide)
            · cases h

/-- Units that neither end a string nor start an escape are passed over. -/
theorem quotedBody?_append {q : UInt16} {s t : Text}
    (h : ∀ u ∈ s, u ≠ q ∧ u ≠ lineFeed ∧ u ≠ backslash) :
    quotedBody? q (s ++ t) = (quotedBody? q t).map fun (body, after) => (s ++ body, after) := by
  induction s with
  | nil => simp
  | cons u s ih =>
    obtain ⟨⟨hq, hfeed, hslash⟩, hs⟩ := List.forall_mem_cons.mp h
    rw [List.cons_append, Quoted.quotedBody?_cons hq hfeed hslash, ih hs, Option.map_map]
    rfl

theorem ne_of_isEscapeUnit {q u : UInt16} (hq : q = doubleQuote ∨ q = singleQuote)
    (h : isEscapeUnit u = true) : u ≠ q ∧ u ≠ lineFeed ∧ u ≠ backslash := by
  refine ⟨?_, ?_, ?_⟩ <;> rintro rfl
  · rcases hq with rfl | rfl <;> exact absurd h (by decide)
  · exact absurd h (by decide)
  · exact absurd h (by decide)

/-- Blanks at the start of a string stand in it. -/
theorem quotedBody?_blanks {q : UInt16} {blanks t body after : Text}
    (hq : q = doubleQuote ∨ q = singleQuote) (hblank : ∀ u ∈ blanks, isBlank u = true)
    (h : quotedBody? q (blanks ++ t) = some (body, after)) :
    ∃ body', body = blanks ++ body' ∧ quotedBody? q t = some (body', after) := by
  have hunits : ∀ u ∈ blanks, u ≠ q ∧ u ≠ backslash := by
    intro u hu
    have hb := hblank u hu
    constructor <;> rintro rfl
    · rcases hq with rfl | rfl <;> exact absurd hb (by decide)
    · exact absurd hb (by decide)
  induction blanks generalizing body with
  | nil => exact ⟨body, rfl, h⟩
  | cons u blanks ih =>
    obtain ⟨⟨hne, hslash⟩, hrest⟩ := List.forall_mem_cons.mp hunits
    by_cases hfeed : u = lineFeed
    · rw [List.cons_append, quotedBody?, if_neg hne, if_pos hfeed] at h
      cases h
    · rw [List.cons_append, Quoted.quotedBody?_cons hne hfeed hslash] at h
      obtain ⟨⟨b, a⟩, hb, he⟩ := Option.map_eq_some_iff.mp h
      simp only [Prod.mk.injEq] at he
      obtain ⟨rfl, rfl⟩ := he
      obtain ⟨body', rfl, hbody'⟩ := ih (List.forall_mem_cons.mp hblank).2 hb hrest
      exact ⟨body', rfl, hbody'⟩

theorem stringBody?_ne_carriageReturn {q : UInt16} {t : Text} {r : Text × Text}
    (hq : q = doubleQuote ∨ q = singleQuote) (h : stringBody? q t = some r) :
    t.head? ≠ some carriageReturn := by
  cases t with
  | nil => simp
  | cons u t =>
    intro hu
    obtain rfl := Option.some.inj hu
    have hne : carriageReturn ≠ q := by rcases hq with rfl | rfl <;> decide
    rw [stringBody?, if_neg hne, if_pos (by decide)] at h
    cases h

/-- After a backslash and a unit that is no `z` a scan goes on with the next unit. -/
theorem quotedBody?_backslash {q u : UInt16} {t body after : Text}
    (hq : q = doubleQuote ∨ q = singleQuote) (hz : u ≠ unit 'z') (hreturn : u ≠ carriageReturn)
    (ht : t.head? ≠ some carriageReturn) (h : quotedBody? q t = some (body, after)) :
    quotedBody? q (backslash :: u :: t) = some (backslash :: u :: body, after) := by
  have hskip : Escape.skip (u :: t) = ([u], t) := by
    rw [Escape.skip.eq_def]
    simp only [if_neg hz]
    split
    · rename_i hbreak
      have hu : u = lineFeed := by
        have : u = lineFeed ∨ u = carriageReturn := by simpa [Escape.isBreak] using hbreak
        exact this.resolve_right hreturn
      cases t with
      | nil => rfl
      | cons v t =>
        have hv : ¬(Escape.isBreak v && v != u) = true := by
          have : v ≠ carriageReturn := by simpa using ht
          rw [hu]
          simp [Escape.isBreak, this]
        simp only [if_neg hv]
    · rfl
  have hne : backslash ≠ q := by rcases hq with rfl | rfl <;> decide
  rw [quotedBody?, if_neg hne, if_neg (by decide), if_pos rfl, hskip]
  simp only [h]
  rfl

theorem isBlank_of_isAsciiBlank {u : UInt16} (h : Escape.isAsciiBlank u = true) :
    isBlank u = true := by
  simp only [Escape.isAsciiBlank] at h
  simp only [isBlank, h, Bool.true_or]

/-- After `\z` a scan goes on behind all blanks, of which Lua takes those of ASCII. -/
theorem quotedBody?_backslash_z {q : UInt16} {t body after : Text}
    (hq : q = doubleQuote ∨ q = singleQuote)
    (h : quotedBody? q (t.dropWhile Escape.isAsciiBlank) = some (body, after)) :
    quotedBody? q (backslash :: unit 'z' :: t) =
      some (backslash :: unit 'z' :: (t.takeWhile Escape.isAsciiBlank ++ body), after) := by
  have hsplit := List.takeWhile_append_dropWhile (p := Escape.isAsciiBlank) (l := t)
  have hascii : ∀ u ∈ t.takeWhile Escape.isAsciiBlank, isBlank u = true := fun u hu =>
    isBlank_of_isAsciiBlank (List.all_eq_true.mp List.all_takeWhile u hu)
  have htake : t.takeWhile isBlank = t.takeWhile Escape.isAsciiBlank ++
      (t.dropWhile Escape.isAsciiBlank).takeWhile isBlank := by
    conv => lhs; rw [← hsplit]
    rw [List.takeWhile_append_of_pos hascii]
  have hdrop : t.dropWhile isBlank = (t.dropWhile Escape.isAsciiBlank).dropWhile isBlank := by
    conv => lhs; rw [← hsplit]
    rw [List.dropWhile_append_of_pos hascii]
  rw [← List.takeWhile_append_dropWhile (p := isBlank) (l := t.dropWhile Escape.isAsciiBlank)] at h
  obtain ⟨body', rfl, hrest⟩ :=
    quotedBody?_blanks hq (fun u hu => List.all_eq_true.mp List.all_takeWhile u hu) h
  have hne : backslash ≠ q := by rcases hq with rfl | rfl <;> decide
  have hskip : Escape.skip (unit 'z' :: t) = (unit 'z' :: t.takeWhile isBlank,
      t.dropWhile isBlank) := by
    rw [Escape.skip.eq_def]
    rfl
  rw [quotedBody?, if_neg hne, if_neg (by decide), if_pos rfl, hskip]
  simp only [hdrop, hrest, htake]
  simp

/-- A scan finds the same end of a string as Lua. -/
theorem quotedBody?_of_stringBody? {q : UInt16} {t body after : Text}
    (hq : q = doubleQuote ∨ q = singleQuote) (h : stringBody? q t = some (body, after)) :
    quotedBody? q t = some (body, after) := by
  fun_induction stringBody? q t generalizing body after with
  | case1 => cases h
  | case2 rest => rw [← h, quotedBody?, if_pos rfl]
  | case3 => cases h
  | case4 => cases h
  | case5 rest n hlength _ _ ih =>
    obtain ⟨⟨b, a⟩, hb, he⟩ := Option.map_eq_some_iff.mp h
    simp only [Prod.mk.injEq] at he
    obtain ⟨rfl, rfl⟩ := he
    have hquoted := ih hb
    rcases escapeLength?_cases hlength with ⟨rest, rfl, rfl⟩ |
      ⟨u, more, rest, rfl, rfl, hz, hreturn, hmore⟩
    · rw [Nat.add_comm, List.drop_succ_cons, drop_length_takeWhile] at hquoted
      rw [Nat.add_comm, List.take_succ_cons, take_length_takeWhile]
      exact quotedBody?_backslash_z hq hquoted
    · have hdrop : (u :: (more ++ rest)).drop (1 + more.length) = rest := by
        rw [Nat.add_comm, List.drop_succ_cons, List.drop_left]
      have htake : (u :: (more ++ rest)).take (1 + more.length) = u :: more := by
        rw [Nat.add_comm, List.take_succ_cons, List.take_left]
      rw [hdrop] at hquoted hb
      rw [htake]
      have hmore' : quotedBody? q (more ++ rest) = some (more ++ b, a) := by
        rw [quotedBody?_append fun v hv => ne_of_isEscapeUnit hq (hmore v hv), hquoted]
        rfl
      refine quotedBody?_backslash hq hz hreturn ?_ hmore'
      cases more with
      | nil => exact stringBody?_ne_carriageReturn hq hb
      | cons v more =>
        intro hv
        obtain rfl : v = carriageReturn := by simpa using hv
        exact absurd (hmore _ List.mem_cons_self) (by decide)
  | case6 u rest hne hbreak hslash ih =>
    obtain ⟨⟨b, a⟩, hb, he⟩ := Option.map_eq_some_iff.mp h
    simp only [Prod.mk.injEq] at he
    obtain ⟨rfl, rfl⟩ := he
    have hfeed : u ≠ lineFeed := by
      rintro rfl
      exact hbreak (by decide)
    rw [Quoted.quotedBody?_cons hne hfeed hslash, ih hb]
    rfl

end LuaBundle.Lua
