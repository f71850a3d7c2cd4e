import Mathlib.Data.List.Basic
import Nifra.Wire.Values

/-! # Event streams

Messages are written as frames of lines, and a browser reads the lines of a stream back. What it
dispatches is what was sent.
-/

namespace Nifra.Sse

open Wire (JSNumber)

/-- The pieces of a text between its line ends, which are CRLF, CR and LF. -/
def splitLines : JSString → JSString → List JSString
  | line, [] => [line]
  | line, 13 :: 10 :: rest => line :: splitLines [] rest
  | line, c :: rest => if c = 13 ∨ c = 10 then line :: splitLines [] rest
    else splitLines (line ++ [c]) rest

def unify : JSString → JSString
  | [] => []
  | 13 :: 10 :: rest => 10 :: unify rest
  | c :: rest => (if c = 13 then 10 else c) :: unify rest

def IsLine (line : JSString) : Prop := 13 ∉ line ∧ 10 ∉ line

theorem isLine_nil : IsLine [] := ⟨List.not_mem_nil, List.not_mem_nil⟩

theorem IsLine.append {line rest : JSString} (h : IsLine line) (hrest : IsLine rest) :
    IsLine (line ++ rest) :=
  ⟨by simp [h.1, hrest.1], by simp [h.2, hrest.2]⟩

theorem isLine_of_mem_splitLines {line text piece : JSString} (h : IsLine line)
    (hmem : piece ∈ splitLines line text) : IsLine piece := by
  induction line, text using splitLines.induct with
  | case1 line =>
    rw [splitLines, List.mem_singleton] at hmem
    exact hmem ▸ h
  | case2 line rest ih =>
    rw [splitLines, List.mem_cons] at hmem
    rcases hmem with rfl | hmem
    · exact h
    · exact ih isLine_nil hmem
  | case3 line c rest hnot hend ih =>
    rw [splitLines, if_pos hend, List.mem_cons] at hmem
    · rcases hmem with rfl | hmem
      · exact h
      · exact ih isLine_nil hmem
    · exact hnot
  | case4 line c rest hnot hend ih =>
    rw [splitLines, if_neg hend] at hmem
    · push Not at hend
      exact ih (h.append ⟨by simpa using hend.1.symm, by simpa using hend.2.symm⟩) hmem
    · exact hnot

theorem splitLines_append {line text rest : JSString} (h : IsLine text) :
    splitLines line (text ++ 10 :: rest) = (line ++ text) :: splitLines [] rest := by
  induction text generalizing line with
  | nil =>
    rw [List.nil_append, splitLines, if_pos (Or.inr rfl), List.append_nil]
    simp
  | cons c text ih =>
    have hc : ¬(c = 13 ∨ c = 10) := by
      rintro (rfl | rfl)
      · exact h.1 List.mem_cons_self
      · exact h.2 List.mem_cons_self
    have htext : IsLine text :=
      ⟨fun hmem => h.1 (List.mem_cons_of_mem _ hmem), fun hmem => h.2 (List.mem_cons_of_mem _ hmem)⟩
    rw [List.cons_append, splitLines, if_neg hc, ih htext, List.append_assoc, List.singleton_append]
    rintro rest' rfl -
    exact hc (Or.inl rfl)

theorem splitLines_lines {lines : List JSString} (h : ∀ line ∈ lines, IsLine line) :
    splitLines [] (lines.flatMap (· ++ [10])) = lines ++ [[]] := by
  induction lines with
  | nil => rfl
  | cons line lines ih =>
    rw [List.flatMap_cons, List.append_assoc, List.singleton_append,
      splitLines_append (h line List.mem_cons_self), ih fun l hl => h l (List.mem_cons_of_mem _ hl)]
    rfl

theorem flatMap_splitLines (line text : JSString) :
    (splitLines line text).flatMap (· ++ [10]) = line ++ unify text ++ [10] := by
  induction line, text using splitLines.induct with
  | case1 line => simp [splitLines, unify]
  | case2 line rest ih => simp [splitLines, unify, ih]
  | case3 line c rest hnot hend ih =>
    rw [splitLines, unify, if_pos hend, List.flatMap_cons, ih]
    · rcases hend with rfl | rfl <;> simp
    · exact hnot
    · exact hnot
  | case4 line c rest hnot hend ih =>
    push Not at hend
    rw [splitLines, unify, if_neg (not_or.mpr hend), if_neg hend.1, ih]
    · simp
    · exact hnot
    · exact hnot

structure Event where
  type : JSString
  data : JSString
  lastEventId : JSString
  deriving DecidableEq

structure EventParser where
  data : JSString
  eventType : JSString
  lastEventId : JSString
  deriving DecidableEq

namespace EventParser

/-- Process a field. A reconnection time plays no part in what is dispatched. -/
def field (p : EventParser) (name value : JSString) : EventParser :=
  if name = js "event" then { p with eventType := value }
  else if name = js "data" then { p with data := p.data ++ value ++ [10] }
  else if name = js "id" then if 0 ∈ value then p else { p with lastEventId := value }
  else p

def dispatch (p : EventParser) : EventParser × Option Event :=
  if p.data = [] then ({ p with data := [], eventType := [] }, none)
  else ({ p with data := [], eventType := [] },
    some ⟨if p.eventType = [] then js "message" else p.eventType,
      if p.data.getLast? = some 10 then p.data.dropLast else p.data, p.lastEventId⟩)

/-- Process a line: what stands before the first colon names the field, and one space behind the
colon is no part of its value. -/
def line (p : EventParser) (line : JSString) : EventParser × Option Event :=
  match line with
  | [] => p.dispatch
  | 58 :: _ => (p, none)
  | _ =>
    match line.dropWhile (· ≠ 58) with
    | [] => (p.field line [], none)
    | _ :: 32 :: value => (p.field (line.takeWhile (· ≠ 58)) value, none)
    | _ :: value => (p.field (line.takeWhile (· ≠ 58)) value, none)

def run (p : EventParser) : List JSString → List Event
  | [] => []
  | text :: lines => (p.line text).2.toList ++ (p.line text).1.run lines

/-- The events of a stream: a byte order mark in front is dropped, and so is the text after the last
line end. -/
def parse (stream : JSString) : List Event :=
  run ⟨[], [], []⟩
    (splitLines [] (if stream.head? = some 0xFEFF then stream.tail else stream)).dropLast

end EventParser

structure SSEMessage where
  data : Option JSString
  event : Option JSString
  id : Option JSString
  retry : Option JSNumber
  comment : Option JSString

/-- `value.replace(/[\r\n]/g, "")` -/
def stripNewlines (value : JSString) : JSString := value.filter fun c => !(c = 13 || c = 10)

/-- `String(Math.trunc(n))` -/
def truncText : JSNumber → JSString
  | .nan => js "NaN"
  | .negZero => js "0"
  | .infinity true => js "-Infinity"
  | .infinity false => js "Infinity"
  | .finite q =>
    let n := q.num.tdiv q.den
    (if n < 0 then js "-" else []) ++ Double.text (n.natAbs : ℕ)

def formatMessage (m : SSEMessage) : JSString :=
  let frame := match m.comment with
    | some comment => js ": " ++ stripNewlines comment ++ [10]
    | none => []
  let frame := match m.event with
    | some event => frame ++ (js "event: " ++ stripNewlines event ++ [10])
    | none => frame
  let frame := match m.id with
    | some id => frame ++ (js "id: " ++ stripNewlines id ++ [10])
    | none => frame
  let frame := match m.retry with
    | some retry => frame ++ (js "retry: " ++ truncText retry ++ [10])
    | none => frame
  let frame := match m.data with
    | some data =>
      (splitLines [] data).foldl (fun frame line => frame ++ (js "data: " ++ line ++ [10])) frame
    | none => frame
  frame ++ [10]

/-- What the typed stream sends for the JSON text of an event: `{ ...init, data: jsonText(event) }`.
-/
def typedSend (text : JSString) (init : SSEMessage) : SSEMessage := { init with data := some text }

def typeOf (m : SSEMessage) : JSString :=
  match m.event with
  | some event => if stripNewlines event = [] then js "message" else stripNewlines event
  | none => js "message"

def lastId (messages : List SSEMessage) : JSString :=
  (((messages.filterMap SSEMessage.id).map stripNewlines).filter (0 ∉ ·)).getLast?.getD []

def eventOf (before : List SSEMessage) (m : SSEMessage) : Option Event :=
  m.data.map fun data => ⟨typeOf m, unify data, lastId (before ++ [m])⟩

def sent : List SSEMessage → List SSEMessage → List Event
  | _, [] => []
  | before, m :: messages => (eventOf before m).toList ++ sent (before ++ [m]) messages

def frameLines (m : SSEMessage) : List JSString :=
  (m.comment.map fun comment => js ": " ++ stripNewlines comment).toList ++
    ((m.event.map fun event => js "event: " ++ stripNewlines event).toList ++
      ((m.id.map fun id => js "id: " ++ stripNewlines id).toList ++
        ((m.retry.map fun retry => js "retry: " ++ truncText retry).toList ++
          (m.data.map fun data => (splitLines [] data).map (js "data: " ++ ·)).getD [])))

theorem foldl_append (lines : List JSString) (frame : JSString) :
    lines.foldl (fun frame line => frame ++ (js "data: " ++ line ++ [10])) frame =
      frame ++ (lines.map (js "data: " ++ ·)).flatMap (· ++ [10]) := by
  induction lines generalizing frame with
  | nil => simp
  | cons line lines ih =>
    rw [List.foldl_cons, ih, List.map_cons, List.flatMap_cons, List.append_assoc]

theorem formatMessage_eq (m : SSEMessage) :
    formatMessage m = (frameLines m ++ [[]]).flatMap (· ++ [10]) := by
  unfold formatMessage frameLines
  cases m.data with
  | none => cases m.comment <;> cases m.event <;> cases m.id <;> cases m.retry <;> simp
  | some data =>
    simp only [foldl_append]
    cases m.comment <;> cases m.event <;> cases m.id <;> cases m.retry <;> simp

theorem isLine_stripNewlines (value : JSString) : IsLine (stripNewlines value) := by
  constructor <;> simp [stripNewlines]

theorem isLine_truncText (n : JSNumber) : IsLine (truncText n) := by
  cases n with
  | nan => exact ⟨by decide, by decide⟩
  | negZero => exact ⟨by decide, by decide⟩
  | infinity negative => cases negative <;> exact ⟨by decide, by decide⟩
  | finite q =>
    refine IsLine.append ?_ ?_
    · split_ifs
      · exact ⟨by decide, by decide⟩
      · exact isLine_nil
    · have hchar : ∀ c ∈ Double.text ((q.num.tdiv q.den).natAbs : ℕ), Double.IsDecimalChar c :=
        fun c hc => Double.isDecimalChar_of_mem_render hc
      constructor
      · intro hmem
        have := hchar 13 hmem
        simp [Double.IsDecimalChar] at this
      · intro hmem
        have := hchar 10 hmem
        simp [Double.IsDecimalChar] at this

theorem isLine_of_mem_frameLines {m : SSEMessage} {line : JSString} (h : line ∈ frameLines m) :
    IsLine line := by
  have hfield : ∀ {name value : JSString}, IsLine name → IsLine value → IsLine (name ++ value) :=
    fun hname hvalue => hname.append hvalue
  simp only [frameLines, List.mem_append, Option.mem_toList, Option.map_eq_some_iff] at h
  rcases h with ⟨value, -, rfl⟩ | ⟨value, -, rfl⟩ | ⟨value, -, rfl⟩ | ⟨value, -, rfl⟩ | h
  · exact hfield ⟨by decide, by decide⟩ (isLine_stripNewlines value)
  · exact hfield ⟨by decide, by decide⟩ (isLine_stripNewlines value)
  · exact hfield ⟨by decide, by decide⟩ (isLine_stripNewlines value)
  · exact hfield ⟨by decide, by decide⟩ (isLine_truncText value)
  · cases hdata : m.data with
    | none =>
      rw [hdata] at h
      cases h
    | some data =>
      rw [hdata] at h
      obtain ⟨piece, hpiece, rfl⟩ := List.mem_map.mp h
      exact hfield ⟨by decide, by decide⟩ (isLine_of_mem_splitLines isLine_nil hpiece)

namespace EventParser

variable {p : EventParser} {lines : List JSString}

theorem line_field {name : JSString} (value : JSString) (hname : name ≠ []) (hcolon : 58 ∉ name) :
    p.line (name ++ 58 :: 32 :: value) = (p.field name value, none) := by
  have hall : ∀ c ∈ name, (decide (c ≠ 58)) = true := fun c hc =>
    decide_eq_true fun heq => hcolon (heq ▸ hc)
  cases name with
  | nil => exact absurd rfl hname
  | cons c name =>
    have hc : c ≠ 58 := fun heq => hcolon (heq ▸ List.mem_cons_self)
    unfold line
    split
    · next heq => cases heq
    · next heq => exact absurd (List.cons.inj heq).1 hc
    · rw [List.dropWhile_append_of_pos hall, List.takeWhile_append_of_pos hall]
      simp

theorem run_comment (comment : Option JSString) :
    p.run ((comment.map fun comment => js ": " ++ stripNewlines comment).toList ++ lines) =
      p.run lines := by
  cases comment <;> rfl

theorem run_field (name value : JSString) (hname : name ≠ []) (hcolon : 58 ∉ name) :
    p.run ((name ++ 58 :: 32 :: value) :: lines) = (p.field name value).run lines := by
  rw [run, line_field value hname hcolon]
  rfl

theorem run_event (event : Option JSString) :
    p.run ((event.map fun event => js "event: " ++ stripNewlines event).toList ++ lines) =
      run { p with eventType := (event.map stripNewlines).getD p.eventType } lines := by
  cases event with
  | none => rfl
  | some event => exact run_field (js "event") (stripNewlines event) (by decide) (by decide)

def idAfter (last : JSString) (id : Option JSString) : JSString :=
  match id with
  | some id => if 0 ∈ stripNewlines id then last else stripNewlines id
  | none => last

theorem run_id (id : Option JSString) :
    p.run ((id.map fun id => js "id: " ++ stripNewlines id).toList ++ lines) =
      run { p with lastEventId := idAfter p.lastEventId id } lines := by
  cases id with
  | none => rfl
  | some id =>
    have hfield : p.field (js "id") (stripNewlines id) =
        { p with lastEventId := idAfter p.lastEventId (some id) } := by
      unfold field idAfter
      dsimp only
      rw [if_neg (by decide), if_neg (by decide), if_pos rfl]
      split_ifs <;> rfl
    have hrun : p.run ((js "id" ++ 58 :: 32 :: stripNewlines id) :: lines) =
        (p.field (js "id") (stripNewlines id)).run lines :=
      run_field (js "id") (stripNewlines id) (by decide) (by decide)
    rw [← hfield]
    exact hrun

theorem run_retry (retry : Option JSNumber) :
    p.run ((retry.map fun retry => js "retry: " ++ truncText retry).toList ++ lines) =
      p.run lines := by
  cases retry with
  | none => rfl
  | some retry => exact run_field (js "retry") (truncText retry) (by decide) (by decide)

theorem run_data (pieces : List JSString) :
    p.run (pieces.map (js "data: " ++ ·) ++ lines) =
      run { p with data := p.data ++ pieces.flatMap (· ++ [10]) } lines := by
  induction pieces generalizing p with
  | nil => rw [List.flatMap_nil, List.append_nil]; rfl
  | cons piece pieces ih =>
    have hfirst : p.run ((js "data: " ++ piece) :: (pieces.map (js "data: " ++ ·) ++ lines)) =
        (p.field (js "data") piece).run (pieces.map (js "data: " ++ ·) ++ lines) :=
      run_field (js "data") piece (by decide) (by decide)
    rw [List.map_cons, List.cons_append, hfirst, ih, List.flatMap_cons, ← List.append_assoc,
      ← List.append_assoc]
    rfl

theorem run_blank : p.run ([] :: lines) = p.dispatch.2.toList ++ p.dispatch.1.run lines := rfl

theorem dispatch_data (value type id : JSString) : dispatch ⟨value ++ [10], type, id⟩ =
    (⟨[], [], id⟩, some ⟨if type = [] then js "message" else type, value, id⟩) := by
  have hdata : value ++ [10] ≠ [] := by simp
  have hlast : (value ++ [10]).getLast? = some 10 := by simp
  simp only [dispatch, if_neg hdata, hlast, if_true, List.dropLast_concat]

end EventParser

theorem lastId_append (before : List SSEMessage) (m : SSEMessage) :
    lastId (before ++ [m]) = EventParser.idAfter (lastId before) m.id := by
  unfold lastId EventParser.idAfter
  rw [List.filterMap_append, List.map_append, List.filter_append]
  cases hid : m.id with
  | none => simp [hid]
  | some id =>
    by_cases hnul : 0 ∈ stripNewlines id
    · simp [hid, hnul]
    · simp [hid, hnul]

theorem run_frame (before : List SSEMessage) (m : SSEMessage) (lines : List JSString) :
    EventParser.run ⟨[], [], lastId before⟩ (frameLines m ++ [] :: lines) =
      (eventOf before m).toList ++ EventParser.run ⟨[], [], lastId (before ++ [m])⟩ lines := by
  unfold frameLines eventOf typeOf
  rw [List.append_assoc, EventParser.run_comment, List.append_assoc, EventParser.run_event,
    List.append_assoc, EventParser.run_id, List.append_assoc, EventParser.run_retry,
    lastId_append]
  cases m.data with
  | none =>
    change EventParser.run _ ([] :: lines) = _
    rw [EventParser.run_blank]
    rfl
  | some data =>
    change EventParser.run _ ((splitLines [] data).map (js "data: " ++ ·) ++ [] :: lines) = _
    rw [EventParser.run_data, EventParser.run_blank, flatMap_splitLines, List.nil_append,
      List.nil_append, EventParser.dispatch_data]
    cases m.event <;> rfl

theorem run_frames (before messages : List SSEMessage) :
    EventParser.run ⟨[], [], lastId before⟩ (messages.flatMap fun m => frameLines m ++ [[]]) =
      sent before messages := by
  induction messages generalizing before with
  | nil => rfl
  | cons m messages ih =>
    rw [List.flatMap_cons, List.append_assoc, List.singleton_append, run_frame, ih, sent]

theorem sent_append (before messages more : List SSEMessage) :
    sent before (messages ++ more) = sent before messages ++ sent (before ++ messages) more := by
  induction messages generalizing before with
  | nil => rw [List.append_nil]; rfl
  | cons m messages ih =>
    rw [List.cons_append, sent, sent, ih, List.append_assoc, List.append_assoc,
      List.singleton_append]

theorem sent_congr {before before' : List SSEMessage} (h : lastId before = lastId before')
    (messages : List SSEMessage) : sent before messages = sent before' messages := by
  induction messages generalizing before before' with
  | nil => rfl
  | cons m messages ih =>
    have hid : lastId (before ++ [m]) = lastId (before' ++ [m]) := by
      rw [lastId_append, lastId_append, h]
    rw [sent, sent, ih hid, eventOf, eventOf, hid]

theorem lines_of_messages (messages : List SSEMessage) : messages.flatMap formatMessage =
    (messages.flatMap fun m => frameLines m ++ [[]]).flatMap (· ++ [10]) := by
  rw [List.flatMap_assoc]
  exact List.flatMap_congr fun m _ => formatMessage_eq m

theorem head_of_mem_frameLines {m : SSEMessage} {line : JSString} (h : line ∈ frameLines m) :
    ∃ c rest, line = c :: rest ∧ c ≠ 0xFEFF := by
  simp only [frameLines, List.mem_append, Option.mem_toList, Option.map_eq_some_iff] at h
  rcases h with ⟨value, -, rfl⟩ | ⟨value, -, rfl⟩ | ⟨value, -, rfl⟩ | ⟨value, -, rfl⟩ | h
  · exact ⟨_, _, rfl, by decide⟩
  · exact ⟨_, _, rfl, by decide⟩
  · exact ⟨_, _, rfl, by decide⟩
  · exact ⟨_, _, rfl, by decide⟩
  · cases hdata : m.data with
    | none =>
      rw [hdata] at h
      cases h
    | some data =>
      rw [hdata] at h
      obtain ⟨piece, -, rfl⟩ := List.mem_map.mp h
      exact ⟨_, _, rfl, by decide⟩

theorem head_messages (messages : List SSEMessage) :
    (messages.flatMap formatMessage).head? ≠ some 0xFEFF := by
  cases messages with
  | nil => simp
  | cons m messages =>
    rw [List.flatMap_cons, formatMessage_eq]
    cases hlines : frameLines m with
    | nil => simp
    | cons line lines =>
      obtain ⟨c, rest, rfl, hc⟩ := head_of_mem_frameLines (m := m) (hlines ▸ List.mem_cons_self)
      simpa using hc

theorem parse_eq_sent (messages : List SSEMessage) :
    EventParser.parse (messages.flatMap formatMessage) = sent [] messages := by
  have hlines : ∀ line ∈ messages.flatMap fun m => frameLines m ++ [[]], IsLine line := by
    intro line hmem
    obtain ⟨m, -, hmem⟩ := List.mem_flatMap.mp hmem
    rcases List.mem_append.mp hmem with hmem | hmem
    · exact isLine_of_mem_frameLines hmem
    · exact List.mem_singleton.mp hmem ▸ isLine_nil
  unfold EventParser.parse
  rw [if_neg (head_messages messages), lines_of_messages, splitLines_lines hlines,
    List.dropLast_concat]
  exact run_frames [] messages

/-- A browser dispatches the events that were sent, in order, and a message changes no event but its
own, save by its id. -/
theorem parse_messages :
    (∀ messages, EventParser.parse (messages.flatMap formatMessage) = sent [] messages) ∧
    ∀ before after id, ∃ front back, ∀ m : SSEMessage, m.id = id →
      EventParser.parse ((before ++ m :: after).flatMap formatMessage) =
        front ++ (eventOf before m).toList ++ back := by
  refine ⟨parse_eq_sent, fun before after id => ?_⟩
  refine ⟨sent [] before, sent (before ++ [⟨none, none, id, none, none⟩]) after, ?_⟩
  rintro m rfl
  have hid : lastId (before ++ [m]) = lastId (before ++ [⟨none, none, m.id, none, none⟩]) := by
    rw [lastId_append, lastId_append]
  rw [parse_eq_sent, sent_append, sent, List.nil_append, sent_congr hid, List.append_assoc]

theorem unify_of_isLine {text : JSString} (h : IsLine text) : unify text = text := by
  induction text with
  | nil => rfl
  | cons c text ih =>
    have hc : c ≠ 13 := fun heq => h.1 (heq ▸ List.mem_cons_self)
    have htext : IsLine text :=
      ⟨fun hmem => h.1 (List.mem_cons_of_mem _ hmem), fun hmem => h.2 (List.mem_cons_of_mem _ hmem)⟩
    rw [unify, if_neg hc, ih htext]
    rintro rest rfl -
    exact hc rfl

theorem data_of_typedSends {sends : List (JSString × SSEMessage)}
    (h : ∀ send ∈ sends, IsLine send.1) :
    (EventParser.parse ((sends.map fun send => typedSend send.1 send.2).flatMap formatMessage)).map
      Event.data = sends.map Prod.fst := by
  rw [parse_eq_sent]
  generalize [] = before
  induction sends generalizing before with
  | nil => rfl
  | cons send sends ih =>
    rw [List.map_cons, sent, List.map_append, ih fun s hs => h s (List.mem_cons_of_mem _ hs)]
    change [unify send.1] ++ _ = _
    rw [unify_of_isLine (h send List.mem_cons_self)]
    rfl

theorem data_of_typedSends_two :
    (EventParser.parse (([(js "1", ⟨none, none, none, none, none⟩),
      (js "[null]", ⟨none, none, some (js "7\n8"), none, none⟩)].map
        fun send => typedSend send.1 send.2).flatMap formatMessage)).map Event.data
          = [js "1", js "[null]"] :=
  data_of_typedSends (by unfold IsLine; decide)

end Nifra.Sse
