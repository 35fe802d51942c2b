import Nzbd.Engine.Naming

/-!
# Commands

What the client puts on the wire.  `encode` refuses an argument with a carriage
return, a line feed or a zero byte, which would end the command early, and puts
a message-id into angle brackets of its own: `bareId` takes the white space and
the brackets off first.

A pipelined batch is encoded before any of it is sent, so one refused command
refuses the batch (`sendPipelined_eq_ok`).
-/

namespace Nzbd.Nntp

open Utf8

inductive NntpError
  | malformedResponse
  | illegalArgument
  deriving DecidableEq

inductive Command
  | capabilities
  | modeReader
  | authInfoUser (user : Text)
  | authInfoPass (pass : Text)
  | group (name : Text)
  /-- A message-id, with or without angle brackets. -/
  | body (id : Text)
  | head (id : Text)
  | article (id : Text)
  | stat (id : Text)
  | compressDeflate
  | date
  | quit

/-- What ends a command, or a C string.  In UTF-8 none of the three is part of
another character. -/
def isBreak (c : Char) : Bool := c = '\r' || c = '\n' || c = '\x00'

def check (arg : Text) : Except NntpError Text :=
  if arg.any isBreak then .error .illegalArgument else .ok arg

/-- Without the angle brackets around it. -/
def stripBrackets (id : Text) : Text := trimEndMatches (· = '>') (id.dropWhile (· = '<'))

def bareId (arg : Text) : Text := stripBrackets (trim arg)

def msgid (arg : Text) : Except NntpError Text :=
  match check arg with
  | .error e => .error e
  | .ok arg =>
    if bareId arg = [] then .error .illegalArgument
    else .ok (text "<" ++ bareId arg ++ text ">")

/-- One command line around an argument that may be refused. -/
def line (verb : String) (arg : Except NntpError Text) : Except NntpError Text :=
  match arg with
  | .error e => .error e
  | .ok arg => .ok (text verb ++ text " " ++ arg ++ text "\r\n")

def Command.encode : Command → Except NntpError Text
  | .capabilities => .ok (text "CAPABILITIES\r\n")
  | .modeReader => .ok (text "MODE READER\r\n")
  | .authInfoUser u => line "AUTHINFO USER" (check u)
  | .authInfoPass p => line "AUTHINFO PASS" (check p)
  | .group g => line "GROUP" (check g)
  | .body id => line "BODY" (msgid id)
  | .head id => line "HEAD" (msgid id)
  | .article id => line "ARTICLE" (msgid id)
  | .stat id => line "STAT" (msgid id)
  | .compressDeflate => .ok (text "COMPRESS DEFLATE\r\n")
  | .date => .ok (text "DATE\r\n")
  | .quit => .ok (text "QUIT\r\n")

/-- What a batch puts on the wire; nothing is sent when a command is refused. -/
def sendPipelined : List Command → Except NntpError Text
  | [] => .ok []
  | c :: cs =>
    match c.encode with
    | .error e => .error e
    | .ok first =>
      match sendPipelined cs with
      | .error e => .error e
      | .ok rest => .ok (first ++ rest)

/-! ### Brackets -/

theorem stripBrackets_sublist (id : Text) : (stripBrackets id).Sublist id :=
  trimBoth_sublist _ _ id

theorem stripBrackets_idem (id : Text) : stripBrackets (stripBrackets id) = stripBrackets id :=
  trimBoth_idem _ _ id

/-! ### One request -/

/-- A request that ends where it should, and asks for this very id. -/
def bodyLine (id : Text) : Text := text "BODY <" ++ id ++ text ">\r\n"

theorem encode_body_eq_ok {id line : Text} :
    (Command.body id).encode = .ok line ↔
      id.any isBreak = false ∧ bareId id ≠ [] ∧ line = bodyLine (bareId id) := by
  have hline : ∀ bare : Text, text "BODY" ++ text " " ++ (text "<" ++ bare ++ text ">") ++
      text "\r\n" = bodyLine bare := by
    intro bare
    simp [bodyLine, text]
  rw [Command.encode, msgid, check]
  by_cases hb : id.any isBreak = true
  · rw [if_pos hb]
    constructor
    · exact fun h => nomatch h
    · rintro ⟨h, -, -⟩
      rw [hb] at h
      exact absurd h (by decide)
  · rw [if_neg hb]
    by_cases hn : bareId id = []
    · simp only [hn, if_true]
      constructor
      · exact fun h => nomatch h
      · exact fun h => absurd rfl h.2.1
    · simp only [hn, if_false, Nntp.line, hline, Except.ok.injEq]
      constructor
      · rintro rfl
        exact ⟨by simpa using hb, hn, rfl⟩
      · exact fun h => h.2.2.symm

/-- **A request names its id** when nothing of the id ends the line and there is
nothing to strip. -/
theorem encode_body_exact {id : Text} :
    (Command.body id).encode = .ok (bodyLine id) ↔
      id.any isBreak = false ∧ id ≠ [] ∧ bareId id = id := by
  rw [encode_body_eq_ok]
  constructor
  · rintro ⟨hb, hne, hline⟩
    have hid : bareId id = id := by
      simp only [bodyLine, List.append_assoc, List.append_cancel_left_eq,
        List.append_cancel_right_eq] at hline
      exact hline.symm
    rw [hid] at hne
    exact ⟨hb, hne, hid⟩
  · rintro ⟨hb, hne, hid⟩
    rw [hid]
    exact ⟨hb, hne, rfl⟩

theorem bodyLine_unbroken {id : Text} (h : id.any isBreak = false) :
    (text "BODY <" ++ id ++ text ">").any isBreak = false := by
  rw [List.any_append, List.any_append, h]
  decide

theorem sendPipelined_eq_ok {cs : List Command} {f : Command → Text}
    (h : ∀ c ∈ cs, c.encode = .ok (f c)) : sendPipelined cs = .ok (cs.flatMap f) := by
  induction cs with
  | nil => rfl
  | cons c cs ih =>
    rw [sendPipelined, h c (by simp), ih fun c hc => h c (by simp [hc])]
    rfl

end Nzbd.Nntp
