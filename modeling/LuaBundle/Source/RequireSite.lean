import LuaBundle.Source.Token

/-! The places where a source uses the global `require`. A site whose argument is a complete string
literal names a module; any other use is kept as a computed site, so that no dependency is lost in
silence. Fields and methods named `require`, its declarations and assignments to it are no uses,
and neither is the use in `require = require`, after which the name still means the same. -/

namespace LuaBundle

open Text
open Token (significant? balanced? restOfLine source)

/-- A use of the global `require`, with the position of the word. -/
structure RequireSite where
  /-- The content of a literal argument; a computed argument has none. -/
  moduleName : Option Text
  /-- The argument as it is written; of a computed one, with every run of blanks as one space. -/
  rawArgument : Text
  position : Position
  deriving DecidableEq, Repr

namespace RequireSite

def isLiteral (site : RequireSite) : Bool := site.moduleName.isSome

def literal (position : Position) (name raw : Text) : RequireSite := ⟨some name, raw, position⟩

def computed (position : Position) (raw : Text) : RequireSite :=
  ⟨none, trim (collapseBlanks raw), position⟩

/-- A token that is neither blank nor comment, as the scan remembers it. -/
inductive Mark where
  | start
  | word (text : Text)
  | string
  | symbol (unit : UInt16)
  deriving DecidableEq, Repr

/-- The two tokens before a place. -/
structure History where
  last : Mark
  beforeLast : Mark
  deriving DecidableEq, Repr

namespace History

def empty : History := ⟨.start, .start⟩

def push (h : History) (m : Mark) : History := ⟨m, h.last⟩

/-- Whether the word that follows names a global: it is no field, method or declared name. A dot
after a dot belongs to a concatenation. -/
def precedesGlobal (h : History) : Bool :=
  h.last != .symbol colon && (h.last != .symbol dot || h.beforeLast == .symbol dot) &&
    h.last != .word "local" && h.last != .word "function"

/-- Whether a value that follows is stored under the name `require`. -/
def assignsRequire (h : History) : Bool :=
  h.last == .symbol equals && h.beforeLast == .word "require"

end History

/-- What a use of `require` turned out to be. -/
structure Use where
  /-- None for an assignment to the name. -/
  site : Option RequireSite
  /-- The tokens after the use; none where it holds a literal, bracket or comment that is not
  closed, which ends the scan. -/
  rest : Option (List Token)
  deriving DecidableEq, Repr

/-- The content and the source text of a string literal. -/
def literal? : Lexeme → Option (Text × Text)
  | .quoted q body => some (Escape.decode body, (Lexeme.quoted q body).text)
  | .bracketed level body =>
    some (dropLeadingBreak body, (Lexeme.bracketed level body).text)
  | _ => none
where
  /-- A line break directly after a long bracket is no part of the string. -/
  dropLeadingBreak : Text → Text
    | [] => []
    | u :: rest => if Escape.isBreak u then Escape.afterBreak u rest else u :: rest

/-- Arguments that are not one literal: everything up to the closing parenthesis. -/
def readComputed (position : Position) (ts : List Token) : Use :=
  match balanced? leftParen rightParen 0 ts with
  | some (inside, after) => ⟨some (computed position (source inside)), some after⟩
  | none => ⟨some (computed position (restOfLine ts)), none⟩

/-- The arguments of a call, from its parenthesis or, in a protected call, from the comma after
`require`; there more arguments may follow. A lone literal names the module; anything else up to
the closing parenthesis is computed. -/
def readArguments (position : Position) (protectedCall : Bool) (ts : List Token) : Use :=
  match significant? ts with
  | none => ⟨some (computed position (restOfLine ts)), none⟩
  | some us =>
    match us with
    | [] => readComputed position ts
    | t :: rest =>
      match t.lexeme with
      | .openString _ => ⟨some (computed position (restOfLine us)), none⟩
      | lexeme =>
        match literal? lexeme with
        | none => readComputed position ts
        | some (name, raw) =>
          match significant? rest with
          | some (⟨.symbol u, _⟩ :: after) =>
            if u = rightParen then ⟨some (literal position name raw), some after⟩
            else if protectedCall ∧ u = comma then ⟨some (literal position name raw), some rest⟩
            else readComputed position ts
          | _ => readComputed position ts

/-- A use of `require`, from the tokens after the word. -/
def readCall (position : Position) (ts : List Token) : Use :=
  match significant? ts with
  | none => ⟨some (computed position []), none⟩
  | some [] => ⟨some (computed position []), some ts⟩
  | some (t :: rest) =>
    match t.lexeme with
    | .openString _ => ⟨some (computed position (restOfLine (t :: rest))), none⟩
    | .symbol u =>
      if u = leftParen then readArguments position false rest
      else if u = leftBrace then
        match balanced? leftBrace rightBrace 0 rest with
        | some (inside, after) =>
          ⟨some (computed position (leftBrace :: source inside ++ [rightBrace])), some after⟩
        | none => ⟨some (computed position (source (t :: rest))), none⟩
      else if u = equals ∧ (source rest).head? ≠ some equals then ⟨none, some ts⟩
      else ⟨some (computed position []), some ts⟩
    | lexeme =>
      match literal? lexeme with
      | some (name, raw) => ⟨some (literal position name raw), some rest⟩
      | none => ⟨some (computed position []), some ts⟩

/-- The use in `pcall(require, …)`, from the tokens after `pcall`; none for any other call. -/
def readProtected? (ts : List Token) : Option Use :=
  match significant? ts with
  | some (⟨.symbol u, _⟩ :: ts) =>
    if u = leftParen then
      match significant? ts with
      | some (⟨.word w, position⟩ :: ts) =>
        if w = "require" then
          match significant? ts with
          | some (⟨.symbol v, _⟩ :: ts) =>
            if v = comma then some (readArguments position true ts) else none
          | _ => none
        else none
      | _ => none
    else none
  | _ => none

theorem length_readComputed {position : Position} {ts after : List Token}
    (h : (readComputed position ts).rest = some after) :
    after.length ≤ ts.length := by
  unfold readComputed at h
  split at h
  · rename_i hb
    simp only [Option.some.injEq] at h
    have := Token.length_balanced? hb
    rw [← h]
    omega
  · simp at h

theorem length_readArguments {position : Position} {protectedCall : Bool} {ts after : List Token}
    (h : (readArguments position protectedCall ts).rest = some after) :
    after.length ≤ ts.length := by
  unfold readArguments at h
  split at h
  · simp at h
  · rename_i us hs
    have hus := Token.length_significant? hs
    split at h
    · exact length_readComputed h
    · rename_i t rest
      simp only [List.length_cons] at hus
      split at h
      · simp at h
      · split at h
        · exact length_readComputed h
        · split at h
          · rename_i hr
            have hrest := Token.length_significant? hr
            simp only [List.length_cons] at hrest
            split at h
            · simp only [Option.some.injEq] at h
              rw [← h]
              omega
            · split at h
              · simp only [Option.some.injEq] at h
                rw [← h]
                omega
              · exact length_readComputed h
          · exact length_readComputed h

theorem length_readCall {position : Position} {ts after : List Token}
    (h : (readCall position ts).rest = some after) : after.length ≤ ts.length := by
  unfold readCall at h
  split at h
  · simp at h
  · simp only [Option.some.injEq] at h
    simp [h]
  · rename_i t rest hs
    have hlen := Token.length_significant? hs
    simp only [List.length_cons] at hlen
    split at h
    · simp at h
    · split at h
      · have := length_readArguments h
        omega
      · split at h
        · split at h
          · rename_i hb
            have := Token.length_balanced? hb
            simp only [Option.some.injEq] at h
            rw [← h]
            omega
          · simp at h
        · split at h
          · simp only [Option.some.injEq] at h
            simp [h]
          · simp only [Option.some.injEq] at h
            simp [h]
    · split at h
      · simp only [Option.some.injEq] at h
        rw [← h]
        omega
      · simp only [Option.some.injEq] at h
        simp [h]

/-- The tokens at the start of a protected call of `require`. -/
theorem readProtected?_eq_some {ts : List Token} {use : Use} (h : readProtected? ts = some use) :
    ∃ p position q parens names commas,
      significant? ts = some (⟨.symbol leftParen, p⟩ :: parens) ∧
        significant? parens = some (⟨.word "require", position⟩ :: names) ∧
        significant? names = some (⟨.symbol comma, q⟩ :: commas) ∧
        use = readArguments position true commas := by
  unfold readProtected? at h
  repeat' split at h
  all_goals try cases h
  rename_i u p parens hparens hu _ w position names hnames hw _ v q commas hcommas hv
  subst hu hw hv
  exact ⟨p, position, q, parens, names, commas, hparens, hnames, hcommas, rfl⟩

theorem length_readProtected? {ts after : List Token} {use : Use}
    (h : readProtected? ts = some use) (hr : use.rest = some after) :
    after.length ≤ ts.length := by
  obtain ⟨_, _, _, parens, names, commas, hparens, hnames, hcommas, rfl⟩ := readProtected?_eq_some h
  have h₁ := Token.length_significant? hparens
  have h₂ := Token.length_significant? hnames
  have h₃ := Token.length_significant? hcommas
  have h₄ := length_readArguments hr
  simp only [List.length_cons] at h₁ h₂ h₃
  omega

/-- The use that a word starts: a `require` that is global, or a `pcall` that is given `require`. -/
def use? (h : History) (word : Text) (position : Position) (rest : List Token) : Option Use :=
  if word = "require" ∧ h.precedesGlobal then some (readCall position rest)
  else if word = "pcall" then readProtected? rest
  else none

theorem length_use? {h : History} {word : Text} {position : Position} {ts after : List Token}
    {use : Use} (hu : use? h word position ts = some use) (hr : use.rest = some after) :
    after.length ≤ ts.length := by
  unfold use? at hu
  split at hu
  · rw [← Option.some.inj hu] at hr
    exact length_readCall hr
  · split at hu
    · exact length_readProtected? hu hr
    · simp at hu

/-- Whether a use only stores `require` under its own name. -/
def keepsName (h : History) (site : RequireSite) : Bool :=
  site.moduleName.isNone && site.rawArgument.isEmpty && h.assignsRequire

/-- What stands for a use in the history: a call ends in a parenthesis, an assignment target is a
word. -/
def markOf (word : Text) (use : Use) : Mark :=
  if word = "require" ∧ use.site.isSome then .symbol rightParen else .word word

/-- The sites among tokens that follow a history. -/
def scanTokens (h : History) : List Token → List RequireSite
  | [] => []
  | t :: rest =>
    match t.lexeme with
    | .blank _ | .comment _ => scanTokens h rest
    | .openComment _ | .openString _ => []
    | .quoted _ _ | .bracketed _ _ => scanTokens (h.push .string) rest
    | .symbol u => scanTokens (h.push (.symbol u)) rest
    | .word w =>
      match _hu : use? h w t.position rest with
      | none => scanTokens (h.push (.word w)) rest
      | some use =>
        (use.site.filter fun site => !keepsName h site).toList ++
          match _hr : use.rest with
          | none => []
          | some after => scanTokens (h.push (markOf w use)) after
termination_by ts => ts.length
decreasing_by
  all_goals simp only [List.length_cons]
  any_goals omega
  have := length_use? _hu _hr
  omega

/-- The tokens of a source. A first line that starts with `#` is for the operating system and holds
none. -/
def tokens (t : Text) : List Token :=
  if t.head? = some hash then
    Token.place (Position.start.after (firstLine t ++ (t.dropWhile (· != lineFeed)).take 1))
      (lexemes (afterFirstLine t))
  else Token.place .start (lexemes t)

def scan (t : Text) : List RequireSite := scanTokens .empty (tokens t)

end RequireSite

end LuaBundle
