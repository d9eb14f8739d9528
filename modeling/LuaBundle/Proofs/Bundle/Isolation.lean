import LuaBundle.Proofs.Bundle.Linking
import LuaBundle.Proofs.Source.Embedding

/-! What a scan finds in a bundle: the host function that the prelude keeps, then the sites of each
source, moved down to where its text stands. Neither keys and paths nor the ends of sources reach
what stands around them. -/

namespace LuaBundle.Bundle

open Text RequireSite

/-- Texts each of which is ended by a line feed. -/
def lines (ts : List Text) : Text := ts.flatMap (· ++ [lineFeed])

theorem lines_append (ss ts : List Text) : lines (ss ++ ts) = lines ss ++ lines ts :=
  List.flatMap_append

theorem joinWith_concat (ts : List Text) (t : Text) :
    joinWith [lineFeed] (ts ++ [t]) = lines ts ++ t := by
  induction ts with
  | nil => simp [joinWith, lines]
  | cons u ts ih =>
    have hne : ts ++ [t] ≠ [] := by simp
    rw [joinWith] at ih ⊢
    rw [List.cons_append, List.intercalate_cons_of_ne_nil hne, ih]
    simp [lines]

theorem joinWith_append_lineFeed {ts : List Text} (h : ts ≠ []) :
    joinWith [lineFeed] ts ++ [lineFeed] = lines ts := by
  obtain ⟨front, last, rfl⟩ := List.eq_nil_or_concat ts |>.resolve_left h
  rw [List.concat_eq_append, joinWith_concat, lines_append]
  simp [lines]

theorem after_lines {ts : List Text} (h : ∀ t ∈ ts, lineFeed ∉ t) (n : Nat) :
    (Position.start.down n).after (lines ts) = Position.start.down (n + ts.length) := by
  induction ts generalizing n with
  | nil => rfl
  | cons t ts ih =>
    obtain ⟨ht, hts⟩ := List.forall_mem_cons.mp h
    have hline : (Position.start.down n).after (t ++ [lineFeed]) = Position.start.down (n + 1) :=
      Position.after_line ht _
    rw [lines, List.flatMap_cons, Position.after_append, hline, ← lines, ih hts,
      List.length_cons, Nat.add_right_comm, Nat.add_assoc]

/-! The lines of the header are comments, whatever stands in keys and paths. -/

/-- Keys and paths stand in a comment without their control characters. -/
theorem printable_commentText (t : Text) : Quoted.Printable (commentText t) := by
  intro u hu
  obtain ⟨v, _, hv⟩ := List.mem_flatMap.mp hu
  split at hv
  · exact Quoted.printable_numeric ‹_› u hv
  · rw [List.mem_singleton.mp hv]
    exact Bool.eq_false_iff.mpr ‹_›

def headerLines (version : Text) (manifest : Manifest) : List Text :=
  [ofString "-- Bundled by luastitch " ++ version, ofString "-- Embedded modules:"] ++
    manifest.map headerLine ++ [ofString "-- WARNING: Do not modify this file manually"]

theorem header_eq (version : Text) (manifest : Manifest) :
    header version manifest = lines (headerLines version manifest) := by
  have hparts := joinWith_concat (headerLines version manifest) []
  rw [List.append_nil] at hparts
  rw [← hparts, header, headerLines]
  simp

variable {version : Text} {manifest : Manifest}

theorem printable_headerLine (e : ManifestEntry) : Quoted.Printable (headerLine e) := by
  have hfixed : Quoted.Printable (ofString "--   ") ∧ Quoted.Printable (ofString ": ") := by decide
  simp only [headerLine, Quoted.Printable, List.forall_mem_append]
  exact ⟨⟨⟨hfixed.1, printable_commentText _⟩, hfixed.2⟩, printable_commentText _⟩

/-- The lines of the header after the first, whatever the manifest, hold no control character. -/
theorem headerLines_cases {t : Text} (h : t ∈ headerLines version manifest) :
    t = ofString "-- Bundled by luastitch " ++ version ∨ Quoted.Printable t := by
  have hfixed : Quoted.Printable (ofString "-- Embedded modules:") ∧
      Quoted.Printable (ofString "-- WARNING: Do not modify this file manually") := by
    decide +kernel
  simp only [headerLines, List.mem_append, List.mem_cons, List.not_mem_nil, or_false,
    List.mem_map] at h
  rcases h with ((rfl | rfl) | ⟨e, _, rfl⟩) | rfl
  · exact .inl rfl
  · exact .inr hfixed.1
  · exact .inr (printable_headerLine e)
  · exact .inr hfixed.2

theorem dashes_headerLines : ∀ t ∈ headerLines version manifest, [dash, dash, space] <+: t := by
  intro t ht
  simp only [headerLines, List.mem_append, List.mem_cons, List.not_mem_nil, or_false,
    List.mem_map] at ht
  rcases ht with ((rfl | rfl) | ⟨e, _, rfl⟩) | rfl
  · exact ⟨_, rfl⟩
  · exact ⟨_, rfl⟩
  · exact ⟨_, rfl⟩
  · exact ⟨_, rfl⟩

/-- No line of the header holds a control character that the version does not hold. -/
theorem notMem_headerLines {u : UInt16} (hu : Quoted.isControl u = true) (hversion : u ∉ version) :
    ∀ t ∈ headerLines version manifest, u ∉ t := by
  have hfixed : Quoted.Printable (ofString "-- Bundled by luastitch ") := by decide +kernel
  have hne : ∀ {t : Text}, Quoted.Printable t → u ∉ t := fun h hmem =>
    absurd (h u hmem) (by simp [hu])
  intro t ht
  rcases headerLines_cases ht with rfl | hplain
  · rw [List.mem_append, not_or]
    exact ⟨hne hfixed, hversion⟩
  · exact hne hplain

theorem silent_header (hversion : lineFeed ∉ version) : Silent (header version manifest) := by
  rw [header_eq]
  refine .flatMap fun t ht => ?_
  obtain ⟨c, rfl⟩ := dashes_headerLines t ht
  have hfeed := notMem_headerLines (by decide) hversion _ ht
  exact .comment fun hc => hfeed (List.mem_append_right _ hc)

theorem after_header (hversion : lineFeed ∉ version) :
    Position.start.after (header version manifest) = Position.start.down (manifest.length + 3) := by
  rw [header_eq]
  refine (after_lines (notMem_headerLines (by decide) hversion) 0).trans ?_
  simp [headerLines]

/-! The prelude has one use: it keeps the function of the host. -/

theorem apart_spaced {w s : Text} {ls : List Lexeme} (hne : w ≠ [])
    (hall : w.all isWordUnit = true) (h : Apart s ls) :
    Apart (w ++ space :: s) (.word w :: .blank space :: ls) :=
  .word hne hall rfl (.blank (by decide) h)

theorem apart_equals {s : Text} {ls : List Lexeme} (h : Apart s ls) :
    Apart (ofString " = " ++ s) (.blank space :: .symbol equals :: .blank space :: ls) :=
  .blank (by decide) (@Apart.append [equals] _ _ _ (.symbols (by decide)) (.blank (by decide) h))

theorem sitesFrom_require {t : Text} (h : Lua.startsWord t = false) (g : History) (p : Position) :
    sitesFrom g p ("require" ++ t) =
      scanTokens g (⟨.word "require", p⟩ :: Token.place (p.after "require") (lexemes t)) := by
  rw [sitesFrom, lexemes_word (by decide) (List.all_eq_true.mp (by decide)) h]
  rfl

/-- The word `require` before another word is a use by itself. -/
theorem sitesFrom_bare {h : History} {p q : Position} {t w : Text} {rest : List Token}
    (hglobal : h.precedesGlobal = true) (hassigns : h.assignsRequire = false)
    (ht : Lua.startsWord t = false)
    (hnext : Token.significant? (Token.place (p.after "require") (lexemes t)) =
      some (⟨.word w, q⟩ :: rest)) (hw : w ≠ "require") :
    sitesFrom h p ("require" ++ t) =
      computed p [] :: sitesFrom (h.push (.symbol rightParen)) (p.after "require") t := by
  have hassigned : ¬IsAssigned (Token.place (p.after "require") (lexemes t)) :=
    not_isAssigned_of_word hnext fun s hs => ⟨w, by rw [← Option.some.inj hs], hw⟩
  have hread := @readCall_bare p _ _ hnext (fun s hs => by rw [← Option.some.inj hs]; rfl) hassigned
  have hu : use? h "require" p (Token.place (p.after "require") (lexemes t)) =
      some ⟨some (computed p []), some (Token.place (p.after "require") (lexemes t))⟩ := by
    rw [use?, if_pos ⟨rfl, hglobal⟩, hread]
  have hkeeps : keepsName h (computed p []) = false := by rw [keepsName, hassigns, Bool.and_false]
  rw [sitesFrom_require ht, scanTokens_use hu, markOf, if_pos ⟨rfl, rfl⟩]
  simp [Option.filter, hkeeps, sitesFrom]

theorem sitesFrom_hostRequire (h : History) (n : Nat) (t : Text) :
    ∃ g, sitesFrom h (Position.start.down n) (lines (preludeLines.drop 4) ++ t) =
      computed ⟨n + 1, 34⟩ [] ::
        sitesFrom g (Position.start.down (n + 1)) (lines (preludeLines.drop 5) ++ t) := by
  obtain ⟨more, hmore⟩ : ∃ more, lines (preludeLines.drop 5) ++ t =
      lineFeed :: ("local" ++ space :: more) := ⟨_, rfl⟩
  have hline : lines (preludeLines.drop 4) ++ t =
      ("local" ++ space :: (hostRequire ++ ofString " = ")) ++
        ("require" ++ lineFeed :: (lines (preludeLines.drop 5) ++ t)) := rfl
  have hapart : Apart ("local" ++ space :: (hostRequire ++ ofString " = ")) [.word "local",
      .blank space, .word hostRequire, .blank space, .symbol equals, .blank space] :=
    apart_spaced (by decide) (by decide) (.word (by decide) (by decide) rfl
      (@apart_equals [] [] .nil))
  have hat : (Position.start.down n).after ("local" ++ space :: (hostRequire ++ ofString " = ")) =
      ⟨n + 1, 34⟩ := by
    rw [Position.after_down, Nat.add_comm]
    rfl
  obtain ⟨q, rest, hnext⟩ : ∃ q rest, Token.significant? (Token.place
      (Position.after ⟨n + 1, 34⟩ "require")
      (lexemes (lineFeed :: lineFeed :: ("local" ++ space :: more)))) =
        some (⟨.word "local", q⟩ :: rest) := by
    rw [lexemes_lineFeed, lexemes_lineFeed,
      lexemes_word (by decide) (List.all_eq_true.mp (by decide)) rfl]
    exact ⟨_, _, rfl⟩
  have hend : (Position.after ⟨n + 1, 34⟩ "require").step lineFeed =
      Position.start.down (n + 1) := by
    rw [Position.down, Nat.add_comm Position.start.line]
    rfl
  rw [hline, sitesFrom_append hapart rfl, hat, hmore,
    sitesFrom_bare rfl rfl rfl hnext (by decide), sitesFrom_lineFeed, hend]
  exact ⟨_, rfl⟩

theorem silent_preludeLines :
    ∀ s ∈ preludeLines.take 4 ++ preludeLines.drop 5, Silent (s ++ [lineFeed]) := by
  have hpasses : ((preludeLines.take 4 ++ preludeLines.drop 5).all fun s =>
      (lexemes s).all passes) = true := by decide +kernel
  exact fun s hs => .line (List.all_eq_true.mp hpasses s hs)

theorem lineFeed_notMem_preludeLines : ∀ s ∈ preludeLines, lineFeed ∉ s := by decide +kernel

theorem prelude_lines : prelude ++ [lineFeed] = lines preludeLines :=
  joinWith_append_lineFeed (by decide)

theorem after_prelude (n : Nat) : (Position.start.down n).after (prelude ++ [lineFeed]) =
    Position.start.down (n + preludeLines.length) := by
  rw [prelude_lines]
  exact after_lines lineFeed_notMem_preludeLines n

theorem sitesFrom_prelude (h : History) (n : Nat) (t : Text) :
    ∃ g, sitesFrom h (Position.start.down n) (prelude ++ [lineFeed] ++ t) =
      computed ⟨n + 5, 34⟩ [] ::
        sitesFrom g ((Position.start.down n).after (prelude ++ [lineFeed])) t := by
  have hsplit : prelude ++ [lineFeed] ++ t = lines (preludeLines.take 4) ++
      (lines (preludeLines.drop 4) ++ t) := by
    rw [← List.append_assoc, ← lines_append, List.take_append_drop, prelude_lines]
  have htop : (Position.start.down n).after (lines (preludeLines.take 4)) =
      Position.start.down (n + 4) :=
    after_lines (fun s hs => lineFeed_notMem_preludeLines s (List.mem_of_mem_take hs)) n
  have hbottom : (Position.start.down (n + 4 + 1)).after (lines (preludeLines.drop 5)) =
      Position.start.down (n + preludeLines.length) :=
    after_lines (fun s hs => lineFeed_notMem_preludeLines s (List.mem_of_mem_drop hs)) _
  obtain ⟨hfirst, hlast⟩ := List.forall_mem_append.mp silent_preludeLines
  obtain ⟨g₁, habove⟩ := Silent.flatMap hfirst h (Position.start.down n)
    (lines (preludeLines.drop 4) ++ t)
  obtain ⟨g₂, hhost⟩ := sitesFrom_hostRequire g₁ (n + 4) t
  obtain ⟨g₃, hbelow⟩ := Silent.flatMap hlast g₂ (Position.start.down (n + 4 + 1)) t
  rw [← lines, htop] at habove
  rw [← lines, hbottom] at hbelow
  exact ⟨g₃, by rw [hsplit, habove, hhost, hbelow, after_prelude]⟩

/-! The statements that follow the prelude. -/

theorem lineFeed_notMem_encode (t : Text) : lineFeed ∉ Quoted.encode t := fun hmem =>
  absurd (Quoted.printable_encode t lineFeed hmem) (by decide)

theorem apart_encode (key : Text) :
    Apart (Quoted.encode key) [.quoted doubleQuote (key.flatMap Quoted.encodeUnit)] := fun t => by
  have htext : Quoted.encode key ++ t =
      doubleQuote :: (key.flatMap Quoted.encodeUnit ++ doubleQuote :: t) := by
    simp [Quoted.encode]
  rw [htext, lexemes, Lexeme.read, if_neg (by decide), if_neg (by decide), if_pos (by decide),
    Quoted.quotedBody?_flatMap_encodeUnit]
  rfl

/-- A key in brackets; the quote keeps the bracket from opening a long one. -/
theorem apart_element {table : Text} (hne : table ≠ []) (hall : table.all isWordUnit = true)
    (key : Text) : Apart (element table (Quoted.encode key)) [.word table, .symbol leftBracket,
      .quoted doubleQuote (key.flatMap Quoted.encodeUnit), .symbol rightBracket] := fun t => by
  have htext : element table (Quoted.encode key) ++ t =
      table ++ leftBracket :: (Quoted.encode key ++ rightBracket :: t) := by
    simp [element]
  have hopening : Lexeme.openingLevel? (leftBracket :: (Quoted.encode key ++ rightBracket :: t)) =
      none := rfl
  rw [htext, lexemes_word hne (List.all_eq_true.mp hall) (by rfl), lexemes,
    Lexeme.read_symbol (by decide) (by decide) (by decide) (fun h => absurd h.1 (by decide))
      hopening,
    apart_encode, lexemes_plainSymbol (by decide)]
  rfl

/-- A declaration of `require` is no use. -/
theorem sitesFrom_local {h : History} (hlocal : h.last = .word "local") (p : Position) {t : Text}
    (ht : Lua.startsWord t = false) : sitesFrom h p ("require" ++ t) =
      sitesFrom (h.push (.word "require")) (p.after "require") t := by
  have hglobal : h.precedesGlobal = false := by
    rw [Bool.eq_false_iff, Ne, History.precedesGlobal_iff]
    exact fun hg => hg.2.2.1 hlocal
  have hu : use? h "require" p (Token.place (p.after "require") (lexemes t)) = none := by
    rw [use?, if_neg (by simp [hglobal]), if_neg (by decide)]
  rw [sitesFrom_require ht, scanTokens_word hu]
  rfl

/-- The line before the body of a loader leaves a scan as it starts. -/
theorem sitesFrom_opening (h : History) (p : Position) (key t : Text) :
    ∃ g, Alike .empty g ∧
      sitesFrom h p (element moduleTable (Quoted.encode key) ++ Statement.loaderHead ++ t) =
        sitesFrom g (p.after (element moduleTable (Quoted.encode key) ++ Statement.loaderHead))
          t := by
  have hhead : Statement.loaderHead = (ofString " = " ++ ("function" ++ ("(...)" ++ space ::
      ("local" ++ [space])))) ++ ("require" ++ (ofString " = " ++ (requireFunction ++
        [lineFeed]))) := by decide +kernel
  have hbefore : Apart
      (ofString " = " ++ ("function" ++ ("(...)" ++ space :: ("local" ++ [space]))))
      (.blank space :: .symbol equals :: .blank space :: .word "function" ::
        ((ofString "(...)").map .symbol ++ [.blank space, .word "local", .blank space])) :=
    apart_equals (.word (by decide) (by decide) rfl (.append (.symbols (by decide))
      (.blank (by decide) (apart_spaced (by decide) (by decide) .nil))))
  have hafter : Apart (ofString " = " ++ (requireFunction ++ [lineFeed])) [.blank space,
      .symbol equals, .blank space, .word requireFunction, .blank lineFeed] :=
    apart_equals (.word (by decide) (by decide) rfl (.blank (by decide) .nil))
  have helement := @apart_element moduleTable (by decide) (by decide) key
  refine ⟨⟨.word requireFunction, .symbol equals⟩, ?_, ?_⟩
  · exact ⟨⟨.inr (by simp [TellsNothing, History.empty]; decide), by simp, by simp⟩, by decide⟩
  · rw [hhead, List.append_assoc, List.append_assoc, sitesFrom_append helement rfl,
      sitesFrom_append hbefore rfl, List.append_assoc, sitesFrom_local rfl _ rfl,
      sitesFrom_append hafter rfl]
    simp only [Position.after_append]
    rfl

theorem after_opening (key : Text) (p : Position) :
    p.after (element moduleTable (Quoted.encode key) ++ Statement.loaderHead) =
      ⟨p.line + 1, 1⟩ := by
  have hfixed : lineFeed ∉ moduleTable ∧
      lineFeed ∉ ofString " = function(...) local require = " ++ requireFunction := by
    decide +kernel
  have hkey := lineFeed_notMem_encode key
  have hfeed : lineFeed ∉ element moduleTable (Quoted.encode key) ++
      (ofString " = function(...) local require = " ++ requireFunction) := by
    rw [List.mem_append, not_or, element]
    refine ⟨?_, hfixed.2⟩
    simp only [List.mem_append, List.mem_cons, List.not_mem_nil, not_or, or_false]
    exact ⟨⟨hfixed.1, by decide, hkey⟩, by decide⟩
  rw [Statement.loaderHead, ← List.append_assoc]
  exact Position.after_line hfeed p

/-- The sites of a loader are those of its source, as many lines further down as it opens. -/
theorem sitesFrom_loader {source : Text} (hruns : RunsToEnd source) (h : History) (p : Position)
    (key t : Text) :
    ∃ g, sitesFrom h p ((Statement.loader key (moduleBody source)).text ++ t) =
      (scan source).map (down p.line) ++
        sitesFrom g (p.after (Statement.loader key (moduleBody source)).text) t := by
  have htext : (Statement.loader key (moduleBody source)).text =
      (element moduleTable (Quoted.encode key) ++ Statement.loaderHead) ++
        ((moduleBody source ++ [lineFeed]) ++ ("end" ++ [lineFeed])) := by
    simp only [Statement.text, Statement.loaderHead, List.append_assoc, List.cons_append]
    rfl
  have hend : lexemes ("end" ++ [lineFeed] ++ t) = .word "end" :: .blank lineFeed :: lexemes t := by
    rw [List.append_assoc, lexemes_word (by decide) (List.all_eq_true.mp (by decide)) rfl,
      List.singleton_append, lexemes_lineFeed]
  obtain ⟨g, hg, hopening⟩ := sitesFrom_opening h p key
    (((moduleBody source ++ [lineFeed]) ++ ("end" ++ [lineFeed])) ++ t)
  obtain ⟨g', hbody⟩ := hruns.sitesFrom_eq hg p.line
  obtain ⟨g'', hrest⟩ := @Silent.line "end" (by decide +kernel) g'
    (Position.after ⟨p.line + 1, 1⟩ (moduleBody source ++ [lineFeed])) t
  have hsplit : ((moduleBody source ++ [lineFeed]) ++ ("end" ++ [lineFeed])) ++ t =
      moduleBody source ++ lineFeed :: ("end" ++ [lineFeed] ++ t) := by simp
  refine ⟨g'', ?_⟩
  have hafter : p.after (Statement.loader key (moduleBody source)).text =
      (Position.after ⟨p.line + 1, 1⟩ (moduleBody source ++ [lineFeed])).after
        ("end" ++ [lineFeed]) := by
    rw [htext, Position.after_append, after_opening, Position.after_append]
  rw [hafter, htext, List.append_assoc, hopening, after_opening, hsplit,
    hbody _ _ _ hend (by decide), hrest]

theorem silent_synonym (name key : Text) : Silent (Statement.synonym name key).text := by
  have htext : (Statement.synonym name key).text = element aliasTable (Quoted.encode name) ++
      (ofString " = " ++ (Quoted.encode key ++ [lineFeed])) := by
    simp [Statement.text]
  rw [htext]
  refine .of_apart ?_ ((apart_element (by decide) (by decide) name).append
    (apart_equals ((apart_encode key).append (.blank (by decide) .nil))))
  rfl

theorem silent_run (key : Text) : Silent (Statement.run key).text := by
  have htext : (Statement.run key).text =
      "return" ++ space :: (element moduleTable (Quoted.encode key) ++
        (ofString "(...)" ++ [lineFeed])) := by
    rw [Statement.text, List.append_assoc]
    rfl
  rw [htext]
  refine .of_apart ?_ (apart_spaced (by decide) (by decide)
    ((apart_element (by decide) (by decide) key).append (.append (.symbols (by decide))
      (.blank (by decide) .nil))))
  rfl

/-- Statements with a line feed after each. -/
def code (ss : List Statement) : Text := lines (ss.map Statement.text)

theorem code_cons (s : Statement) (ss : List Statement) :
    code (s :: ss) = s.text ++ ([lineFeed] ++ code ss) := by
  rw [code, List.map_cons, lines, List.flatMap_cons, List.append_assoc]
  rfl

theorem code_append (ss ss' : List Statement) : code (ss ++ ss') = code ss ++ code ss' := by
  rw [code, List.map_append, lines_append]
  rfl

section Modules

variable {source : Text → Text}

def synonyms (m : EmbeddedModule) : List Statement :=
  m.aliases.map fun name => .synonym name m.key

/-- The statements that register modules. -/
def registrations (source : Text → Text) (modules : List EmbeddedModule) : List Statement :=
  modules.flatMap fun m => register m (source m.path)

theorem registrations_cons (m : EmbeddedModule) (modules : List EmbeddedModule) :
    registrations source (m :: modules) =
      .loader m.key (moduleBody (source m.path)) :: (synonyms m ++ registrations source modules) :=
  List.flatMap_cons

theorem silent_synonyms (m : EmbeddedModule) : Silent ([lineFeed] ++ code (synonyms m)) := by
  refine .append .newline (.flatMap fun t ht => ?_)
  rw [synonyms, List.map_map] at ht
  obtain ⟨name, _, rfl⟩ := List.mem_map.mp ht
  exact (silent_synonym name m.key).append .newline

/-- Each loader opens on a line of its own, and the sites of its source follow from there. -/
theorem sitesFrom_registrations {modules : List EmbeddedModule}
    (hruns : ∀ m ∈ modules, RunsToEnd (source m.path)) (hnodup : (modules.map (·.path)).Nodup)
    (h : History) (p : Position) (t : Text) :
    ∃ (g : History) (line : Text → Nat),
      (∀ m ∈ modules, ∃ before after, registrations source modules =
          before ++ .loader m.key (moduleBody (source m.path)) :: after ∧
        line m.path = (p.after (code before)).line) ∧
      sitesFrom h p (code (registrations source modules) ++ t) =
        (modules.flatMap fun m => (scan (source m.path)).map (down (line m.path))) ++
          sitesFrom g (p.after (code (registrations source modules))) t := by
  induction modules generalizing h p with
  | nil => exact ⟨h, fun _ => 0, by simp, rfl⟩
  | cons m modules ih =>
    obtain ⟨hm, hruns⟩ := List.forall_mem_cons.mp hruns
    obtain ⟨hnew, hnodup⟩ := List.nodup_cons.mp hnodup
    let opening : Statement := .loader m.key (moduleBody (source m.path))
    have hcode : code (registrations source (m :: modules)) =
        opening.text ++
          (([lineFeed] ++ code (synonyms m)) ++ code (registrations source modules)) := by
      rw [registrations_cons, code_cons, code_append, List.append_assoc]
    obtain ⟨g₁, hloader⟩ := sitesFrom_loader hm h p m.key
      (([lineFeed] ++ code (synonyms m)) ++ (code (registrations source modules) ++ t))
    obtain ⟨g₂, hsynonyms⟩ := silent_synonyms m g₁ (p.after opening.text)
      (code (registrations source modules) ++ t)
    obtain ⟨g₃, line, hline, hrest⟩ := ih hruns hnodup g₂
      ((p.after opening.text).after ([lineFeed] ++ code (synonyms m)))
    have hothers : ∀ m' ∈ modules, Function.update line m.path p.line m'.path = line m'.path :=
      fun m' hm' => Function.update_of_ne (fun he => hnew (List.mem_map.mpr ⟨m', hm', he⟩)) _ _
    refine ⟨g₃, Function.update line m.path p.line, List.forall_mem_cons.mpr ⟨?_, ?_⟩, ?_⟩
    · exact ⟨[], _, registrations_cons m modules, Function.update_self _ _ _⟩
    · intro m' hm'
      obtain ⟨before, after, hsplit, hat⟩ := hline m' hm'
      refine ⟨opening :: (synonyms m ++ before), after, ?_, ?_⟩
      · rw [registrations_cons, hsplit]
        simp [opening]
      · rw [hothers m' hm', hat, code_cons, code_append]
        simp only [Position.after_append]
    · have hlater : (modules.flatMap fun m' => (scan (source m'.path)).map
          (down (Function.update line m.path p.line m'.path))) =
            modules.flatMap fun m' => (scan (source m'.path)).map (down (line m'.path)) :=
        List.flatMap_congr fun m' hm' => by rw [hothers m' hm']
      have hend : p.after (code (registrations source (m :: modules))) =
          ((p.after opening.text).after ([lineFeed] ++ code (synonyms m))).after
            (code (registrations source modules)) := by
        rw [hcode, Position.after_append, Position.after_append]
      rw [hend, hcode, List.append_assoc, List.append_assoc, hloader, hsynonyms, hrest,
        List.flatMap_cons, hlater, Function.update_self, List.append_assoc]

end Modules

theorem render_lineFeed (before : List Statement) :
    render version manifest before ++ [lineFeed] =
      (header version manifest ++ [lineFeed]) ++ ((prelude ++ [lineFeed]) ++ code before) := by
  rw [render, joinWith_append_lineFeed (List.cons_ne_nil _ _), lines, List.flatMap_cons,
    List.flatMap_cons]
  rfl

theorem render_concat (ss : List Statement) (s : Statement) :
    render version manifest (ss ++ [s]) =
      (header version manifest ++ [lineFeed]) ++
        ((prelude ++ [lineFeed]) ++ (code ss ++ s.text)) := by
  have hparts : header version manifest :: prelude :: (ss ++ [s]).map Statement.text =
      (header version manifest :: prelude :: ss.map Statement.text) ++ [s.text] := by simp
  rw [render, hparts, joinWith_concat, lines, List.flatMap_cons, List.flatMap_cons]
  simp only [List.append_assoc]
  rfl

theorem after_headerLine (hversion : lineFeed ∉ version) :
    Position.start.after (header version manifest ++ [lineFeed]) =
      Position.start.down (manifest.length + 4) := by
  rw [Position.after_append, after_header hversion]
  rfl

theorem after_render (hversion : lineFeed ∉ version) (before : List Statement) :
    Position.start.after (render version manifest before ++ [lineFeed]) =
      ((Position.start.down (manifest.length + 4)).after (prelude ++ [lineFeed])).after
        (code before) := by
  rw [render_lineFeed, Position.after_append, after_headerLine hversion]
  exact Position.after_append _ _ _

theorem silent_runEntry (modules : List EmbeddedModule) (entry : ManifestEntry) :
    Silent (runEntry modules entry).text := by
  unfold runEntry
  split <;> exact silent_run _

/-- A scan of a bundle finds the use in its prelude, and then the sites of its sources: file by
file, each as many lines further down as the line on which the loader of the file opens. -/
theorem scan_ofManifest {w : Workspace} {text : Text}
    (hb : ofManifest w version manifest = .ok text) (hversion : lineFeed ∉ version)
    (hends : ∀ path ∈ manifest.files, ∀ source, w.readText path = .ok source → RunsToEnd source) :
    ∃ (ss : List Statement) (source : Text → Text) (line : Text → Nat),
      statements w manifest = .ok ss ∧ text = render version manifest ss ∧
      (∀ path ∈ manifest.files, w.readText path = .ok (source path) ∧
        ∃ before after,
          ss = before ++ .loader (manifest.firstKey path) (moduleBody (source path)) :: after ∧
          line path = (Position.start.after (render version manifest before ++ [lineFeed])).line) ∧
      scan text = computed ⟨manifest.length + 9, 34⟩ [] ::
        manifest.files.flatMap fun path => (scan (source path)).map (down (line path)) := by
  obtain ⟨modules, entry, source, _, _, hgroups, hread, hstatements, rfl⟩ := exists_registered hb
  have hmem : ∀ m ∈ modules, m.path ∈ manifest.files := fun m hm =>
    hgroups.paths ▸ List.mem_map_of_mem hm
  have hnodup : (modules.map (·.path)).Nodup := hgroups.paths ▸ Manifest.nodup_distinct _
  let run := runEntry modules entry
  obtain ⟨g₁, hheader⟩ := ((@silent_header version manifest hversion).append .newline)
    .empty .start ((prelude ++ [lineFeed]) ++ (code (registrations source modules) ++ run.text))
  obtain ⟨g₂, hprelude⟩ := sitesFrom_prelude g₁ (manifest.length + 4)
    (code (registrations source modules) ++ run.text)
  obtain ⟨g₃, line, hline, hmodules⟩ := sitesFrom_registrations
    (fun m hm => hends _ (hmem m hm) _ (hread m hm)) hnodup g₂
    ((Position.start.down (manifest.length + 4)).after (prelude ++ [lineFeed])) run.text
  refine ⟨_, source, line, hstatements, rfl, ?_, ?_⟩
  · intro path hpath
    rw [← hgroups.paths] at hpath
    obtain ⟨m, hm, rfl⟩ := List.mem_map.mp hpath
    obtain ⟨before, after, hsplit, hat⟩ := hline m hm
    refine ⟨hread m hm, before, after ++ [run], ?_, ?_⟩
    · rw [registered, ← registrations, hsplit, key_eq_firstKey hgroups hm]
      simp [run]
    · rw [hat, after_render hversion]
  · have hhead : (render version manifest (registrations source modules ++ [run])).head? ≠
        some hash := by
      rw [render_concat, header_eq]
      exact (by decide : some dash ≠ some hash)
    rw [after_headerLine hversion, hprelude, hmodules,
      (silent_runEntry modules entry).sitesFrom_eq_nil, List.append_nil] at hheader
    rw [registered, ← registrations, scan_eq hhead, render_concat, hheader, ← hgroups.paths,
      List.flatMap_map]

/-- A script with a first line for the operating system that requires one which ends in a
comment. -/
def commented : Workspace where
  base := "/p"
  entries :=
    [(["p"], .directory), (["p", "main.lua"], ModuleGraph.scriptFile "#!lua\nrequire 'x'"),
      (["p", "x.lua"], ModuleGraph.scriptFile "return 1 --")]

set_option maxRecDepth 100000 in
/-- The sites in the bundle of a program with a comment at the end of a source. -/
theorem scan_commented :
    lineFeed ∉ Bundle.version ∧ RunsToEnd "return 1 --" ∧ RunsToEnd "#!lua\nrequire 'x'" ∧
      ∃ (text : Text) (line : Text → Nat),
        ofManifest commented Bundle.version [⟨"x", "/p/x.lua"⟩, ⟨"main", "/p/main.lua"⟩] =
          .ok text ∧
        scan text = [computed ⟨11, 34⟩ [],
          down (line "/p/main.lua") (literal ⟨2, 1⟩ "x" "'x'")] := by
  let manifest : Manifest := [⟨"x", "/p/x.lua"⟩, ⟨"main", "/p/main.lua"⟩]
  have hversion : lineFeed ∉ Bundle.version := by decide +kernel
  have hlibrary : RunsToEnd "return 1 --" := by decide +kernel
  have hprogram : RunsToEnd "#!lua\nrequire 'x'" := by decide +kernel
  have hread : commented.readText "/p/x.lua" = .ok "return 1 --" ∧
      commented.readText "/p/main.lua" = .ok "#!lua\nrequire 'x'" := by decide +kernel
  have hscans : scan "return 1 --" = [] ∧
      scan "#!lua\nrequire 'x'" = [literal ⟨2, 1⟩ "x" "'x'"] := by decide +kernel
  have hfiles : manifest.files = [ofString "/p/x.lua", ofString "/p/main.lua"] := by decide +kernel
  have hends : ∀ path ∈ manifest.files, ∀ source, commented.readText path = .ok source →
      RunsToEnd source := by
    rw [hfiles]
    refine List.forall_mem_cons.mpr ⟨fun source hs => ?_, List.forall_mem_singleton.mpr
      fun source hs => ?_⟩
    · rwa [← Except.ok.inj (hread.1.symm.trans hs)]
    · rwa [← Except.ok.inj (hread.2.symm.trans hs)]
  have hstatements : (statements commented manifest).isOk = true := by decide +kernel
  obtain ⟨text, htext⟩ : ∃ text, ofManifest commented Bundle.version manifest = .ok text := by
    rw [ofManifest]
    cases hss : statements commented manifest with
    | error e => rw [hss] at hstatements; cases hstatements
    | ok ss => exact ⟨_, rfl⟩
  obtain ⟨ss, source, line, _, _, hsource, hscan⟩ := scan_ofManifest htext hversion hends
  rw [hfiles] at hsource hscan
  have hx := Except.ok.inj (hread.1.symm.trans (hsource "/p/x.lua" (by simp)).1)
  have hmain := Except.ok.inj (hread.2.symm.trans (hsource "/p/main.lua" (by simp)).1)
  refine ⟨hversion, hlibrary, hprogram, text, line, htext, ?_⟩
  rw [hscan, List.flatMap_cons, List.flatMap_cons, ← hx, ← hmain, hscans.1, hscans.2]
  rfl

end LuaBundle.Bundle
