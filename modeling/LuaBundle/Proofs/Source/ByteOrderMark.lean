import LuaBundle.Proofs.Source.Embedding
import LuaBundle.Proofs.Source.Shape

/-! A source after a byte-order mark. The scan takes the mark for a blank, so that it finds the same
one column further on. But only the first unit of a source tells a line for the operating system:
after a mark the scan reads such a line as code, and a body keeps it with the mark. -/

namespace LuaBundle

open Text

namespace Text

/-- The unit that a file in an encoding of Unicode may start with. -/
def byteOrderMark : UInt16 := 0xFEFF

end Text

namespace Position

/-- The position one column further on, on the first line. -/
def indent (p : Position) : Position := if p.line = 1 then ⟨p.line, p.column + 1⟩ else p

@[simp] theorem line_indent (p : Position) : p.indent.line = p.line := by
  unfold indent
  split <;> rfl

theorem step_indent {p : Position} (hp : p.line ≠ 0) (u : UInt16) :
    p.indent.step u = (p.step u).indent := by
  unfold step indent
  split_ifs <;> simp_all

theorem after_indent {p : Position} (hp : p.line ≠ 0) (t : Text) :
    p.indent.after t = (p.after t).indent := by
  induction t generalizing p with
  | nil => rfl
  | cons u t ih =>
    have hline : (p.step u).line ≠ 0 := by
      unfold step
      split_ifs
      · exact Nat.succ_ne_zero _
      · exact hp
    rw [after_cons, step_indent hp, ih hline, after_cons]

end Position

namespace Token

variable {f : Position → Position}

theorem significant?_move (f : Position → Position) (ts : List Token) :
    significant? (ts.map (move f)) = (significant? ts).map (List.map (move f)) := by
  rcases significant?_move_cases f ts with hts | hnone | ⟨t, rest, hrest, hmoved⟩
  · rw [hts.move.significant?_eq, hts.significant?_eq]
    rfl
  · obtain ⟨hsame, hmoved⟩ := hnone []
    rw [List.append_nil] at hsame hmoved
    rw [hsame, hmoved]
    rfl
  · have hsame := hrest []
    have hmove := hmoved []
    rw [List.append_nil, List.append_nil] at hsame hmove
    rw [hsame, hmove]
    rfl

theorem significant?_map_move (f : Position → Position) {ts us : List Token}
    (hts : significant? ts = some us) :
    significant? (ts.map (move f)) = some (us.map (move f)) := by
  rw [significant?_move, hts]
  rfl

theorem exists_of_significant?_move {ts rest' : List Token} {x' : Token}
    (h : significant? (ts.map (move f)) = some (x' :: rest')) :
    ∃ x rest, significant? ts = some (x :: rest) ∧ x' = x.move f ∧ rest' = rest.map (move f) := by
  rw [significant?_move] at h
  obtain ⟨us, hus, hmap⟩ := Option.map_eq_some_iff.mp h
  obtain ⟨x, rest, rfl, rfl, rfl⟩ := List.map_eq_cons_iff.mp hmap
  exact ⟨x, rest, hus, rfl, rfl⟩

@[simp] theorem restOfLine_move (ts : List Token) :
    restOfLine (ts.map (move f)) = restOfLine ts := by
  rw [restOfLine, restOfLine, source_move]

end Token

namespace RequireSite

open Token (significant? balanced? restOfLine source move)

/-! A scan at other places finds the same there. -/

/-- The use at another place. -/
def Use.move (f : Position → Position) (use : Use) : Use :=
  ⟨use.site.map (moved f), use.rest.map (List.map (Token.move f))⟩

section Moved

variable {h g : History} {w : Text} (f : Position → Position) (p : Position) (ts : List Token)

theorem readComputed_move :
    readComputed (f p) (ts.map (move f)) = (readComputed p ts).move f := by
  rw [readComputed, readComputed, Token.balanced?_move]
  cases balanced? leftParen rightParen 0 ts with
  | none =>
    simp only [Option.map_none, Token.restOfLine_move]
    rfl
  | some found =>
    simp only [Option.map_some, Token.source_move]
    rfl

theorem readArguments_move (protectedCall : Bool) :
    readArguments (f p) protectedCall (ts.map (move f)) =
      (readArguments p protectedCall ts).move f := by
  have hread := argumentsRead p protectedCall ts
  generalize readArguments p protectedCall ts = use at hread ⊢
  cases hread with
  | unread hts =>
    rw [readArguments, Token.significant?_move, hts]
    exact congrArg (fun line => Use.mk (some (computed (f p) line)) none) (Token.restOfLine_move ts)
  | @openString s q rest hts =>
    rw [readArguments, Token.significant?_map_move f hts]
    exact congrArg (fun line => Use.mk (some (computed (f p) line)) none)
      (Token.restOfLine_move (⟨.openString s, q⟩ :: rest))
  | @literal x _ _ name raw _ hts hx hrest =>
    have hmoved : literal? (x.move f).lexeme = some (name, raw) := hx
    rw [readArguments_of_literal (Token.significant?_map_move f hts) rfl hmoved,
      Token.significant?_map_move f hrest]
    rfl
  | @first x _ _ name raw _ hts hx hrest hprotected =>
    have hmoved : literal? (x.move f).lexeme = some (name, raw) := hx
    rw [readArguments_of_literal (Token.significant?_map_move f hts) rfl hmoved,
      Token.significant?_map_move f hrest, hprotected]
    rfl
  | computed hts hopen hliteral =>
    rw [← readComputed_move]
    have hsome := Option.isSome_of_eq_some (Token.significant?_map_move f hts)
    refine readArguments_to_close hsome ?_ ?_
    · intro s q rest' hfirst
      obtain ⟨x, rest, hx, he, _⟩ := Token.exists_of_significant?_move hfirst
      obtain rfl := Option.some.inj (hts.symm.trans hx)
      exact hopen x rfl s (congrArg Token.lexeme he).symm
    · intro x' rest' u q after' hfirst hliteral' hafter'
      obtain ⟨x, rest, hx, rfl, rfl⟩ := Token.exists_of_significant?_move hfirst
      obtain ⟨⟨l, q'⟩, after, hafter, he, _⟩ := Token.exists_of_significant?_move hafter'
      obtain rfl : Lexeme.symbol u = l := congrArg Token.lexeme he
      exact hliteral x rest (Option.some.inj (hts.symm.trans hx)) hliteral' u q' after hafter

theorem isAssigned_map_move_iff : IsAssigned (ts.map (move f)) ↔ IsAssigned ts := by
  constructor
  · rintro ⟨q, rest', hts, hne⟩
    obtain ⟨x, rest, hx, he, rfl⟩ := Token.exists_of_significant?_move hts
    rw [Token.source_move] at hne
    exact (isAssigned_iff_of_significant? hx).mpr ⟨(congrArg Token.lexeme he).symm, hne⟩
  · rintro ⟨q, rest, hts, hne⟩
    exact ⟨f q, rest.map (move f), Token.significant?_map_move f hts, by rwa [Token.source_move]⟩

theorem readCall_move : readCall (f p) (ts.map (move f)) = (readCall p ts).move f := by
  have hread := callRead p ts
  generalize readCall p ts = use at hread ⊢
  cases hread with
  | unread hts =>
    rw [readCall, Token.significant?_move, hts]
    rfl
  | @openString s q rest hts =>
    rw [readCall, Token.significant?_map_move f hts]
    exact congrArg (fun line => Use.mk (some (computed (f p) line)) none)
      (Token.restOfLine_move (⟨.openString s, q⟩ :: rest))
  | assigned hassigned =>
    obtain ⟨q, rest, hts, hne⟩ := (isAssigned_map_move_iff f ts).mpr hassigned
    rw [readCall_symbol hts, if_neg (by decide), if_neg (by decide), if_pos ⟨rfl, hne⟩]
    rfl
  | bare hts hopens hassigned =>
    refine readCall_bare (Token.significant?_map_move f hts) (fun t ht => ?_)
      (mt (isAssigned_map_move_iff f ts).mp hassigned)
    rw [List.head?_map] at ht
    obtain ⟨x, hx, rfl⟩ := Option.map_eq_some_iff.mp ht
    exact hopens x hx
  | arguments hts =>
    rw [readCall_symbol (Token.significant?_map_move f hts), if_pos rfl]
    exact readArguments_move f p _ false
  | table hts hinside =>
    rw [readCall_symbol (Token.significant?_map_move f hts), if_neg (by decide), if_pos rfl,
      Token.balanced?_move, hinside]
    simp only [Option.map_some, Token.source_move]
    rfl
  | @openTable q rest hts hinside =>
    rw [readCall_symbol (Token.significant?_map_move f hts), if_neg (by decide), if_pos rfl,
      Token.balanced?_move, hinside]
    exact congrArg (fun argument => Use.mk (some (computed (f p) argument)) none)
      (Token.source_move (⟨.symbol leftBrace, q⟩ :: rest))
  | literal hts hx =>
    rw [readCall_literal (Token.significant?_map_move f hts) hx]
    rfl

theorem readProtected?_move :
    readProtected? (ts.map (move f)) = (readProtected? ts).map (Use.move f) := by
  rcases readProtected?_cases ts with hnone | ⟨position, commas, hsome⟩
  · have hmoved := hnone f [] .nil
    have hsame := hnone id [] .nil
    rw [List.append_nil] at hmoved hsame
    rw [Token.map_move_id] at hsame
    rw [hmoved, hsame]
    rfl
  · have hmoved := hsome f []
    have hsame := hsome id []
    rw [List.append_nil, List.append_nil] at hmoved hsame
    rw [Token.map_move_id, Token.map_move_id] at hsame
    rw [hmoved, hsame, readArguments_move]
    rfl

theorem use?_move (hh : h.precedesGlobal = g.precedesGlobal) :
    use? g w (f p) (ts.map (move f)) = (use? h w p ts).map (Use.move f) := by
  rw [use?, use?, hh]
  split_ifs
  · rw [readCall_move]
    rfl
  · exact readProtected?_move f ts
  · rfl

end Moved

section Scan

variable {h h' g : History} {ts ts' : List Token} {sites : List RequireSite}

/-- A scan takes the same step at other places. -/
theorem Step.moved (f : Position → Position) (ha : Alike h g) (hs : Step h ts sites h' ts') :
    ∃ g', Alike h' g' ∧ Step g (ts.map (move f)) (sites.map (moved f)) g' (ts'.map (move f)) := by
  cases hs with
  | gap ht => exact ⟨g, ha, .gap ht⟩
  | @mark t _ m hm hword =>
    refine ⟨g.push m, ha.push m, .mark hm fun w hw => ?_⟩
    have hmoved := use?_move f t.position ts' (w := w) ha.precedesGlobal_eq
    rwa [hword w hw] at hmoved
  | @use w p ts _ site hu =>
    have hmoved := use?_move f p ts (w := w) ha.precedesGlobal_eq
    rw [hu] at hmoved
    rw [← made_map_moved f ha]
    refine ⟨_, ?_, .use hmoved⟩
    rw [markOf_moved f w site (some ts')]
    exact ha.push _

/-- A scan at other places finds the same sites there. -/
theorem scanTokens_moved (f : Position → Position) (ha : Alike h g) (ts : List Token) :
    scanTokens g (ts.map (move f)) = (scanTokens h ts).map (moved f) := by
  induction h, ts using scan_induction generalizing g with
  | done => simp [scanTokens]
  | opened h t ts ht =>
    rw [scanTokens_open ht]
    exact scanTokens_open (t := t.move f) ht
  | stop h w p ts site hu =>
    have hmoved := use?_move f p ts (w := w) ha.precedesGlobal_eq
    rw [hu] at hmoved
    rw [scanTokens_stop hu, ← made_map_moved f ha]
    exact scanTokens_stop hmoved
  | step h ts sites h' ts' hstep ih =>
    obtain ⟨g', ha', hmoved⟩ := hstep.moved f ha
    rw [hstep.scanTokens_eq, hmoved.scanTokens_eq, ih ha', List.map_append]

end Scan

/-! A source after the mark. -/

/-- A first line that a scan passes as code: it leaves nothing open, holds no use, and ends in
nothing that tells of what follows. -/
structure PassedOver (line : Text) : Prop where
  passes : (lexemes line).all passes = true
  last : TellsNothing (History.empty.pushAll (lexemes line)).last

theorem History.last_foldl_push (h : History) (ms : List Mark) :
    (ms.foldl History.push h).last = ms.getLast?.getD h.last := by
  induction ms using List.reverseRecOn with
  | nil => rfl
  | append_singleton ms m _ =>
    rw [List.foldl_append, List.getLast?_concat]
    rfl

theorem PassedOver.alike {line : Text} (h : PassedOver line) :
    Alike (History.empty.pushAll (lexemes line)) .empty := by
  have hrequire : (History.empty.pushAll (lexemes line)).last ≠ .word "require" := by
    rw [History.pushAll, History.last_foldl_push]
    cases hlast : ((lexemes line).filterMap mark?).getLast? with
    | none => simp [History.empty]
    | some m =>
      rintro rfl
      obtain ⟨l, hl, hm⟩ := List.mem_filterMap.mp (List.mem_of_getLast? hlast)
      have hpasses := List.all_eq_true.mp h.passes l hl
      cases l with
      | word w =>
        obtain rfl := Mark.word.inj (Option.some.inj hm)
        exact absurd hpasses (by decide)
      | _ => cases hm
  exact {
    last := .inr ⟨h.last, by simp [TellsNothing, History.empty]⟩
    dot := fun he => by cases he
    equals := fun he => by cases he
    require := iff_of_false hrequire (by simp [History.empty]) }

/-- The places of a text that starts a line are one column further on where it starts the first. -/
theorem map_moved_sitesFrom {h g : History} (ha : Alike h g) {p : Position} (hp : p.line ≠ 0)
    (t : Text) : (sitesFrom h p t).map (moved Position.indent) = sitesFrom g p.indent t := by
  rw [sitesFrom, sitesFrom, ← Token.map_move_place (Position.after_indent hp),
    scanTokens_moved _ ha]

theorem scan_blank {u : UInt16} (hu : isBlank u = true) (hfeed : u ≠ lineFeed) (s : Text) :
    scan (u :: s) = (sitesFrom .empty .start s).map (moved Position.indent) := by
  have hhash : (u :: s).head? ≠ some hash := by
    rintro ⟨⟩
    exact absurd hu (by decide)
  have hstart : Position.start.after [u] = Position.start.indent := by
    rw [Position.after_cons, Position.after_nil, Position.step, if_neg hfeed]
    rfl
  rw [scan_eq hhash, map_moved_sitesFrom (.refl _) (by decide), ← hstart]
  exact sitesFrom_append (.blank hu .nil) rfl .empty .start s

/-- A first line that is passed as code makes no difference. -/
theorem PassedOver.sitesFrom_eq {s : Text} (hhash : s.head? = some hash)
    (h : PassedOver (firstLine s)) :
    (sitesFrom .empty .start s).map (moved Position.indent) = scan s := by
  rcases eq_firstLine_or s with ⟨hdrop, hline⟩ | ⟨rest, hdrop, hline⟩
  · have hsites := scanTokens_passes h.passes .empty .start []
    rw [List.append_nil, ← hline] at hsites
    rw [sitesFrom, hsites, scan, tokens, if_pos hhash, afterFirstLine, hdrop, List.tail_nil,
      lexemes_nil]
    simp [Token.place, scanTokens]
  · obtain ⟨ls, hapart, hpasses, hpush⟩ := Apart.line h.passes
    have hnext : Position.start.after (firstLine s ++ [lineFeed]) = ⟨2, 1⟩ :=
      Position.after_line (lineFeed_notMem_firstLine s) _
    have hsites := sitesFrom_append hapart hpasses .empty .start rest
    rw [List.append_assoc, List.singleton_append, ← hline, hnext, hpush] at hsites
    rw [hsites, map_moved_sitesFrom h.alike (by decide), scan, tokens, if_pos hhash, afterFirstLine,
      hdrop, List.take_succ_cons, List.take_zero, hnext]
    rfl

/-- A body keeps the mark, and after it a first line that starts with `#`. A scan finds what it
finds in all of the text as code, one column further on. This is what it finds without the mark,
unless a first line for the operating system makes a difference as code. -/
theorem scan_byteOrderMark (s : Text) :
    Bundle.moduleBody (byteOrderMark :: s) = byteOrderMark :: s ∧
    (s.head? ≠ some hash → Bundle.moduleBody s = s) ∧
    scan (byteOrderMark :: s) = (sitesFrom .empty .start s).map (moved Position.indent) ∧
    ((s.head? = some hash → PassedOver (firstLine s)) →
      List.Forall₂ (fun site site' => site'.isLiteral = site.isLiteral ∧
          site'.moduleName = site.moduleName ∧ site'.position.line = site.position.line)
        (scan (byteOrderMark :: s)) (scan s)) := by
  have hmark : (byteOrderMark :: s).head? ≠ some hash :=
    (by decide : some byteOrderMark ≠ some hash)
  have hscan := scan_blank (by decide : isBlank byteOrderMark = true) (by decide) s
  refine ⟨if_neg hmark, fun hhash => if_neg hhash, hscan, fun hline => ?_⟩
  by_cases hhash : s.head? = some hash
  · rw [hscan, (hline hhash).sitesFrom_eq hhash, List.forall₂_same]
    exact fun site _ => ⟨rfl, rfl, rfl⟩
  · rw [hscan, scan_eq hhash, List.forall₂_map_left_iff, List.forall₂_same]
    exact fun site _ => ⟨rfl, rfl, (Position.line_indent _).symm⟩

/-- The mark before a source, and before one with a first line for the operating system. -/
theorem scan_byteOrderMark_interpreter :
    (("return 1" : Text).head? ≠ some hash ∧
      Bundle.moduleBody (byteOrderMark :: "return 1") = byteOrderMark :: "return 1" ∧
      Bundle.moduleBody "return 1" = "return 1") ∧
    PassedOver "#!/usr/bin/lua" ∧
      List.Forall₂ (fun site site' => site'.isLiteral = site.isLiteral ∧
          site'.moduleName = site.moduleName ∧ site'.position.line = site.position.line)
        (scan (byteOrderMark :: "#!/usr/bin/lua\nrequire 'a'"))
        (scan "#!/usr/bin/lua\nrequire 'a'") := by
  have hline : PassedOver "#!/usr/bin/lua" :=
    ⟨by decide +kernel, by unfold TellsNothing; decide +kernel⟩
  obtain ⟨hbody, hsame, _, _⟩ := scan_byteOrderMark "return 1"
  obtain ⟨_, _, _, hagree⟩ := scan_byteOrderMark "#!/usr/bin/lua\nrequire 'a'"
  exact ⟨⟨by decide, hbody, hsame (by decide)⟩, hline, hagree fun _ => hline⟩

/-- The mark stays in a body, and a first line after it is code. -/
theorem byteOrderMark_kept :
    Bundle.moduleBody (byteOrderMark :: "return 1") ≠ Bundle.moduleBody "return 1" ∧
      (scan (byteOrderMark :: "#require 'x'")).length ≠ (scan "#require 'x'").length := by
  decide +kernel

end RequireSite

end LuaBundle
