import Nzbd.Engine.Queue
import Nzbd.Nzb.Reader

/-!
# Writing an NZB from the queue

`jobToNzb` writes a job down as an NZB, line by line, with four characters
escaped.  The same document as XML tokens is `jobTokens`: `render_jobTokens` says
that the text is the rendering of the tokens, and `jobTokens_wellFormed` that they
are a well-formed document, so that an XML reader delivers them one by one.

A line of the text ends in its line feed where a line of tokens starts with it;
`Shifts` carries the one over to the other.
-/

namespace Nzbd

open List Utf8 Xml

/-! ### The text -/

def replaceChar (c : Char) (by_ : String) (s : Text) : Text :=
  s.flatMap fun x => if x = c then text by_ else [x]

def esc (s : Text) : Text :=
  replaceChar '"' "&quot;" (replaceChar '>' "&gt;" (replaceChar '<' "&lt;" (replaceChar '&' "&amp;" s)))

def metaLine (type : String) (value : Text) : Text :=
  text "    <meta type=\"" ++ text type ++ text "\">" ++ esc value ++ text "</meta>\n"

def groupLine (group : Text) : Text :=
  text "      <group>" ++ esc group ++ text "</group>\n"

def segmentLine (s : Segment) : Text :=
  text "      <segment bytes=\"" ++ showNat s.size ++ text "\" number=\"" ++ showNat s.number ++
    text "\">" ++ esc s.messageId ++ text "</segment>\n"

/-- The subject a file is written with: a blank one says nothing. -/
def FileEntry.writtenSubject (f : FileEntry) : Text :=
  if trim f.subject = [] then f.filename else f.subject

def fileLines (f : FileEntry) : Text :=
  text "  <file poster=\"nzbd\" date=\"" ++ Numeral.showInt (f.date.getD 0) ++
    text "\" subject=\"" ++ esc f.writtenSubject ++ text "\">\n" ++
    text "    <groups>\n" ++ f.groups.flatMap groupLine ++ text "    </groups>\n" ++
    text "    <segments>\n" ++ f.segments.flatMap segmentLine ++ text "    </segments>\n" ++
    text "  </file>\n"

def categoryLine (category : Option Text) : Text :=
  match category with
  | some c => metaLine "category" c
  | none => []

/-- Regenerate a job's NZB from queue state. -/
def jobToNzb (job : Job) : Text :=
  text "<?xml version=\"1.0\" encoding=\"UTF-8\"?>\n" ++
    text "<nzb xmlns=\"http://www.newzbin.com/DTD/2003/nzb\">\n" ++
    text "  <head>\n" ++ metaLine "title" job.name ++ categoryLine job.category ++
    text "  </head>\n" ++ job.files.flatMap fileLines ++ text "</nzb>\n"

/-! ### The tokens -/

def metaTokens (type : String) (value : Text) : List Token :=
  .text (text "\n    ") :: element (text "meta") [(text "type", text type)] (escapeTokens value)

def groupTokens (group : Text) : List Token :=
  .text (text "\n      ") :: element (text "group") [] (escapeTokens group)

def segmentTokens (s : Segment) : List Token :=
  .text (text "\n      ") :: element (text "segment")
    [(text "bytes", showNat s.size), (text "number", showNat s.number)]
    (escapeTokens s.messageId)

def groupsTokens (groups : List Text) : List Token :=
  .text (text "\n    ") :: element (text "groups") []
    (groups.flatMap groupTokens ++ [.text (text "\n    ")])

def segmentsTokens (segments : List Segment) : List Token :=
  .text (text "\n    ") :: element (text "segments") []
    (segments.flatMap segmentTokens ++ [.text (text "\n    ")])

def FileEntry.attributes (f : FileEntry) : List (Text × Text) :=
  [(text "poster", text "nzbd"), (text "date", Numeral.showInt (f.date.getD 0)),
    (text "subject", escape f.writtenSubject)]

def fileTokens (f : FileEntry) : List Token :=
  .text (text "\n  ") :: element (text "file") f.attributes
    (groupsTokens f.groups ++ (segmentsTokens f.segments ++ [.text (text "\n  ")]))

def categoryTokens (category : Option Text) : List Token :=
  match category with
  | some c => metaTokens "category" c
  | none => []

def headTokens (job : Job) : List Token :=
  .text (text "\n  ") :: element (text "head") []
    (metaTokens "title" job.name ++ (categoryTokens job.category ++ [.text (text "\n  ")]))

def rootAttributes : List (Text × Text) :=
  [(text "xmlns", text "http://www.newzbin.com/DTD/2003/nzb")]

def jobTokens (job : Job) : List Token :=
  .decl (text "xml version=\"1.0\" encoding=\"UTF-8\"") :: .text (text "\n") ::
    element (text "nzb") rootAttributes
      (headTokens job ++ (job.files.flatMap fileTokens ++ [.text (text "\n")])) ++
    [.text (text "\n")]

/-! ### The text is the rendering of the tokens -/

theorem esc_cons (c : Char) (s : Text) : esc (c :: s) = esc [c] ++ esc s := by
  simp only [esc, replaceChar, flatMap_cons, flatMap_nil, append_nil,
    flatMap_append]

theorem esc_char (c : Char) : esc [c] = escapeChar c := by
  by_cases h1 : c = '&'
  · subst h1; decide
  by_cases h2 : c = '<'
  · subst h2; decide
  by_cases h3 : c = '>'
  · subst h3; decide
  by_cases h4 : c = '"'
  · subst h4; decide
  simp [esc, replaceChar, escapeChar, entity, h1, h2, h3, h4]

theorem esc_eq_escape (s : Text) : esc s = escape s := by
  induction s with
  | nil => rfl
  | cons c s ih =>
    rw [esc_cons, esc_char, ih]
    rfl

theorem render_append (ts us : List Token) : render (ts ++ us) = render ts ++ render us :=
  flatMap_append

/-- A line of text, and the line of tokens that starts with its line feed. -/
def Shifts (line : Text) (ts : List Token) : Prop := '\n' :: line = render ts ++ ['\n']

theorem Shifts.flatMap {α : Type} {xs : List α} {line : α → Text} {ts : α → List Token}
    (h : ∀ x ∈ xs, Shifts (line x) (ts x)) : Shifts (xs.flatMap line) (xs.flatMap ts) := by
  induction xs with
  | nil => rfl
  | cons x xs ih =>
    have hx : '\n' :: line x = render (ts x) ++ ['\n'] := h x (by simp)
    have hxs : '\n' :: xs.flatMap line = render (xs.flatMap ts) ++ ['\n'] :=
      ih fun y hy => h y (by simp [hy])
    show '\n' :: (x :: xs).flatMap line = render ((x :: xs).flatMap ts) ++ ['\n']
    rw [flatMap_cons, flatMap_cons, render_append, ← cons_append, hx,
      append_assoc, singleton_append, hxs, append_assoc]

theorem render_element (run name : Text) (attributes : List (Text × Text))
    (content : List Token) :
    render (.text run :: element name attributes content) =
      run ++ ('<' :: (name ++ (attributes.flatMap renderAttribute ++
        '>' :: (render content ++ ('<' :: '/' :: (name ++ ['>'])))))) := by
  simp [render, element, Token.render]

theorem shifts_meta (type : String) (value : Text) :
    Shifts (metaLine type value) (metaTokens type value) := by
  rw [Shifts, metaLine, metaTokens, esc_eq_escape, ← render_escapeTokens, render_element]
  simp only [renderAttribute, flatMap_cons, flatMap_nil, append_assoc,
    cons_append, nil_append]
  rfl

theorem shifts_group (group : Text) : Shifts (groupLine group) (groupTokens group) := by
  rw [Shifts, groupLine, groupTokens, esc_eq_escape, ← render_escapeTokens, render_element]
  simp only [flatMap_nil, append_assoc, cons_append, nil_append]
  rfl

theorem shifts_segment (s : Segment) : Shifts (segmentLine s) (segmentTokens s) := by
  rw [Shifts, segmentLine, segmentTokens, esc_eq_escape, ← render_escapeTokens, render_element]
  simp only [renderAttribute, flatMap_cons, flatMap_nil, append_assoc,
    cons_append, nil_append]
  rfl

theorem shifts_category (category : Option Text) :
    Shifts (categoryLine category) (categoryTokens category) := by
  cases category with
  | none => rfl
  | some c => exact shifts_meta "category" c

theorem Shifts.append {l l' : Text} {ts us : List Token} (h : Shifts l ts) (h' : Shifts l' us) :
    Shifts (l ++ l') (ts ++ us) := by
  have hl : '\n' :: l = render ts ++ ['\n'] := h
  have hl' : '\n' :: l' = render us ++ ['\n'] := h'
  rw [Shifts, render_append, ← cons_append, hl, append_assoc, singleton_append, hl',
    append_assoc]

/-- A start tag and an end tag on lines of their own, around lines. -/
def blockLines (indent : String) (name : Text) (attributes : List (Text × Text)) (inner : Text) :
    Text :=
  text indent ++ ('<' :: (name ++ (attributes.flatMap renderAttribute ++ '>' :: '\n' :: (inner ++
    (text indent ++ ('<' :: '/' :: (name ++ ['>', '\n'])))))))

def blockTokens (indent : String) (name : Text) (attributes : List (Text × Text))
    (inner : List Token) : List Token :=
  .text ('\n' :: text indent) ::
    element name attributes (inner ++ [.text ('\n' :: text indent)])

theorem Shifts.block {inner : Text} {ts : List Token} (h : Shifts inner ts) (indent : String)
    (name : Text) (attributes : List (Text × Text)) :
    Shifts (blockLines indent name attributes inner) (blockTokens indent name attributes ts) := by
  have hinner : ∀ rest : Text, '\n' :: (inner ++ rest) = render ts ++ '\n' :: rest := by
    intro rest
    have hl : '\n' :: inner = render ts ++ ['\n'] := h
    rw [← cons_append, hl, append_assoc, singleton_append]
  rw [Shifts, blockLines, blockTokens, render_element, render_append, hinner]
  simp [render, Token.render]

theorem shifts_file (f : FileEntry) : Shifts (fileLines f) (fileTokens f) := by
  have hgroups := (Shifts.flatMap fun g (_ : g ∈ f.groups) => shifts_group g).block "    "
    (text "groups") []
  have hsegments := (Shifts.flatMap fun s (_ : s ∈ f.segments) => shifts_segment s).block "    "
    (text "segments") []
  have hfile := (hgroups.append hsegments).block "  " (text "file") f.attributes
  have hline : fileLines f = blockLines "  " (text "file") f.attributes
      (blockLines "    " (text "groups") [] (f.groups.flatMap groupLine) ++
        blockLines "    " (text "segments") [] (f.segments.flatMap segmentLine)) := by
    rw [fileLines, esc_eq_escape]
    simp only [blockLines, FileEntry.attributes, renderAttribute, flatMap_cons,
      flatMap_nil, append_assoc, cons_append, nil_append]
    rfl
  have htokens : fileTokens f = blockTokens "  " (text "file") f.attributes
      (blockTokens "    " (text "groups") [] (f.groups.flatMap groupTokens) ++
        blockTokens "    " (text "segments") [] (f.segments.flatMap segmentTokens)) := by
    rw [fileTokens, blockTokens, append_assoc]
    rfl
  rw [hline, htokens]
  exact hfile

/-- What stands between the tags of the root. -/
def jobLines (job : Job) : Text :=
  blockLines "  " (text "head") [] (metaLine "title" job.name ++ categoryLine job.category) ++
    job.files.flatMap fileLines

theorem shifts_job (job : Job) :
    Shifts (jobLines job) (headTokens job ++ job.files.flatMap fileTokens) := by
  have hhead := ((shifts_meta "title" job.name).append (shifts_category job.category)).block "  "
    (text "head") []
  have htokens : headTokens job = blockTokens "  " (text "head") []
      (metaTokens "title" job.name ++ categoryTokens job.category) := by
    rw [headTokens, blockTokens, append_assoc]
    rfl
  rw [htokens]
  exact hhead.append (Shifts.flatMap fun f _ => shifts_file f)

/-- **The text of a job** is the rendering of its tokens. -/
theorem render_jobTokens (job : Job) : render (jobTokens job) = jobToNzb job := by
  have hinner : ∀ rest : Text, '\n' :: (jobLines job ++ rest) =
      render (headTokens job ++ job.files.flatMap fileTokens) ++ '\n' :: rest := by
    intro rest
    have hl : '\n' :: jobLines job = _ ++ ['\n'] := shifts_job job
    rw [← cons_append, hl, append_assoc, singleton_append]
  have htext : jobToNzb job =
      text "<?xml version=\"1.0\" encoding=\"UTF-8\"?>\n" ++
        ('<' :: (text "nzb" ++ (rootAttributes.flatMap renderAttribute ++
          '>' :: '\n' :: (jobLines job ++ text "</nzb>\n")))) := by
    simp only [jobToNzb, jobLines, blockLines, rootAttributes, renderAttribute, flatMap_cons,
      flatMap_nil, append_assoc, cons_append, nil_append]
    rfl
  rw [htext, hinner, jobTokens, ← append_assoc (headTokens job)]
  generalize headTokens job ++ job.files.flatMap fileTokens = inner
  simp only [render, element, Token.render, flatMap_cons, flatMap_append,
    flatMap_nil, append_assoc, cons_append, nil_append, append_nil]
  rfl

/-! ### A well-formed document -/

theorem literal_of_digits {s : Text} (h : Numeral.Digits s) : Literal s := by
  have hdigit : ∀ d < 16, entity (Nat.digitChar d) = none ∧
      isBreakOrTab (Nat.digitChar d) = false := by decide
  intro c hc
  obtain ⟨d, hd, rfl⟩ := h c hc
  exact hdigit d hd

theorem literal_showNat (n : Nat) : Literal (showNat n) :=
  literal_of_digits (Numeral.digits_toDigits n)

theorem literal_showInt (i : Int) : Literal (Numeral.showInt i) := by
  cases i with
  | ofNat n => exact literal_showNat n
  | negSucc n =>
    intro c hc
    rcases mem_cons.mp hc with rfl | hc
    · decide
    · exact literal_showNat (n + 1) c hc

theorem block_meta {type : String} (h : Literal (text type)) (value : Text) :
    Block (metaTokens type value) := by
  refine (content_escapeTokens value).line (by decide) ⟨fun a ha => ?_, nodup_singleton _⟩ (by decide)
    (by decide)
  obtain rfl := mem_singleton.mp ha
  exact h.isAttribute (by decide)

theorem block_category (category : Option Text) : Block (categoryTokens category) := by
  cases category with
  | none => exact .nil
  | some c => exact block_meta (by decide) c

theorem block_head (job : Job) : Block (headTokens job) := by
  refine Content.line ?_ (by decide) (by simp) (by decide) (by decide)
  exact (block_meta (by decide) job.name).append
    ((block_category job.category).append (.text (by decide) (by decide)))

theorem block_group (group : Text) : Block (groupTokens group) :=
  (content_escapeTokens group).line (by decide) (by simp) (by decide) (by decide)

theorem block_segment (s : Segment) : Block (segmentTokens s) := by
  refine (content_escapeTokens s.messageId).line (by decide)
    ⟨fun a ha => ?_, (by decide : [text "bytes", text "number"].Nodup)⟩ (by decide) (by decide)
  simp only [mem_cons, not_mem_nil, or_false] at ha
  rcases ha with rfl | rfl
  · exact (literal_showNat s.size).isAttribute (by decide)
  · exact (literal_showNat s.number).isAttribute (by decide)

theorem block_groups (groups : List Text) : Block (groupsTokens groups) :=
  ((Block.flatMap fun g _ => block_group g).append (.text (by decide) (by decide))).line
    (by decide) (by simp) (by decide) (by decide)

theorem block_segments (segments : List Segment) : Block (segmentsTokens segments) :=
  ((Block.flatMap fun s _ => block_segment s).append (.text (by decide) (by decide))).line
    (by decide) (by simp) (by decide) (by decide)

theorem block_file (f : FileEntry) : Block (fileTokens f) := by
  refine Content.line ?_ (by decide) ⟨fun a ha => ?_, ?_⟩ (by decide) (by decide)
  · exact (block_groups f.groups).append
      ((block_segments f.segments).append (.text (by decide) (by decide)))
  · simp only [FileEntry.attributes, mem_cons, not_mem_nil, or_false] at ha
    rcases ha with rfl | rfl | rfl
    · exact Literal.isAttribute (by decide) (by decide)
    · exact (literal_showInt _).isAttribute (by decide)
    · exact isAttribute_escape (by decide) _
  · exact (by decide : [text "poster", text "date", text "subject"].Nodup)

/-- **A job is written as a well-formed document.** -/
theorem jobTokens_wellFormed (job : Job) : WellFormed (jobTokens job) := by
  have hroot : ∀ a ∈ rootAttributes, IsAttribute a := by
    intro a ha
    obtain rfl := mem_singleton.mp ha
    exact Literal.isAttribute (by decide) (by decide)
  have hinner : Content (headTokens job ++ (job.files.flatMap fileTokens ++
      [.text (text "\n")])) :=
    (block_head job).append
      ((Block.flatMap fun f _ => block_file f).append (.text (by decide) (by decide)))
  have hline : Block (.text (text "\n") :: element (text "nzb") rootAttributes _) :=
    hinner.line (by decide) ⟨hroot, nodup_singleton _⟩ (by decide) (by decide)
  exact ((Block.decl (by decide)).append
    (hline.append (.text (by decide) (by decide)))).wellFormed

end Nzbd
