import Mathlib.Data.Prod.Lex
import Nifra.Lib.Runs
import Nifra.Live.Hub
import Nifra.Text.Number

/-! # Replies of a Redis client

What `XREAD` and `HMGET` resolve with, and the entries and the position that are read from it.
-/

namespace Nifra.Live

open JSON (Value)

/-- `map` and `record` are without their keys; `other` is neither a number, a text nor an object. -/
inductive Reply
  | null
  | undefined
  | number (n : ℤ)
  | text (s : JSString)
  | array (items : List Reply)
  | map (values : List Reply)
  | record (values : List Reply)
  | other

structure BusPosition where
  seq : ℕ
  n : ℕ
  deriving DecidableEq, Repr

/-- `seq` is 0 when the id is not one that the bus writes; `event` is undefined when the entry does
not hold a bus event. -/
structure Entry where
  id : JSString
  seq : ℕ
  n : ℕ
  event : Option LiveBusEvent

namespace Reply

def isText (name : JSString) : Reply → Bool
  | .text s => s = name
  | _ => false

def items? : Reply → Option (List Reply)
  | .array items => some items
  | _ => none

def countOf : Reply → ℕ
  | .number n => countOfNat n.toNat
  | .text s => countOfText s
  | _ => 0

def positionOf (reply : Reply) : BusPosition :=
  let values := reply.items?.getD []
  ⟨(values.getD 0 .undefined).countOf, (values.getD 1 .undefined).countOf⟩

end Reply

def keysOf (items : List Value) : List JSString :=
  items.filterMap fun item => match item with
    | .string name => some name
    | _ => none

def nullable : Option Value → Option (Option JSString)
  | some .null => some none
  | some (.string s) => some (some s)
  | _ => none

def inputOf (value : Value) : Option LiveBusInput :=
  match property value (js "type"), property value (js "keys") with
  | some (.string type), keys =>
    if type = js "change" then
      match keys with
      | some (.array items) => some (.change (keysOf items))
      | _ => none
    else if type = js "revoke" then do
      let sub ← nullable (property value (js "sub"))
      let key ← nullable (property value (js "key"))
      some (.revoke sub key)
    else none
  | _, _ => none

def eventOf (body : Reply) (seq : ℕ) : Option LiveBusEvent :=
  match body with
  | .text body => do
    let value ← JSON.parse body
    let input ← inputOf value
    some ⟨seq, input⟩
  | _ => none

/-- The count and the body among the fields of an entry, the last of each. -/
def fieldsOf : List Reply → ℕ × Reply → ℕ × Reply
  | name :: value :: rest, (n, body) =>
    fieldsOf rest
      (if name.isText (js "n") then (value.countOf, body)
      else if name.isText (js "e") then (n, value)
      else (n, body))
  | _, found => found

def seqOf (id : JSString) : ℕ :=
  match id.splitOn 45 with
  | time :: part :: _ => if part = js "0" then countOfText time else 0
  | _ => 0

def entryOf : Reply → Option Entry
  | .array (.text id :: .array fields :: _) =>
    let seq := seqOf id
    let (n, body) := fieldsOf fields (0, .undefined)
    some ⟨id, seq, n, if seq = 0 then none else eventOf body seq⟩
  | _ => none

def streamsOf : Reply → Option (List Reply)
  | .array streams => some (streams.map fun stream => (stream.items?.bind (·[1]?)).getD .undefined)
  | .map streams => some streams
  | .record streams => some streams
  | _ => none

def entriesOf (reply : Reply) : Option (List Entry) := do
  let streams ← streamsOf reply
  let entries ← streams.mapM Reply.items?
  entries.flatten.mapM entryOf

/-- What a read that was answered gives: no entries when it was blocked for its whole time. -/
def readOf : Reply → Option (List Entry)
  | .null => some []
  | .undefined => some []
  | reply => entriesOf reply

/-! ## The Redis live bus

A stream that `APPEND_SCRIPT` appends to, and one `follow` of it. What is kept beside the state of
the source: the events appended, and for every call of the listener how many of them there were when
the server answered the request that led to it.
-/

abbrev StreamId := ℕ ×ₗ ℕ

namespace StreamId

def mk (time part : ℕ) : StreamId := toLex (time, part)

def time (id : StreamId) : ℕ := (ofLex id).1

def part (id : StreamId) : ℕ := (ofLex id).2

def text (id : StreamId) : JSString := decimal id.time ++ js "-" ++ decimal id.part

def ofText (s : JSString) : Option StreamId :=
  match s.splitOn 45 with
  | [time, part] =>
    if time ≠ [] ∧ part ≠ [] ∧ time.all JSON.isDigit ∧ part.all JSON.isDigit then
      some (mk (JSON.natOfDigits time) (JSON.natOfDigits part))
    else none
  | _ => none

end StreamId

structure StreamEntry where
  id : StreamId
  fields : List JSString

structure Appended where
  event : LiveBusEvent
  n : ℕ

/-- `seq` and `n` are those of the clock; `top` is the last id of the stream, also when its entry
was trimmed. -/
structure RedisStream where
  seq : ℕ
  n : ℕ
  top : StreamId
  entries : List StreamEntry
  appended : List Appended

/-- `JSON.stringify` of a bus event. -/
def LiveBusInput.toValue : LiveBusInput → Option Value
  | .change keys => some (.object [(js "type", .string (js "change")),
      (js "keys", .array (keys.map .string))])
  | .revoke sub key => some (.object [(js "type", .string (js "revoke")),
      (js "sub", sub.elim .null .string), (js "key", key.elim .null .string)])
  | .malformed => none

namespace RedisStream

def create : RedisStream := ⟨0, 0, StreamId.mk 0 0, [], []⟩

variable (stream : RedisStream)

/-- `XADD`, which refuses an id that is not above the last one. -/
def add (entry : StreamEntry) : Option RedisStream :=
  if stream.top < entry.id then
    some { stream with
      top := entry.id,
      entries := stream.entries ++ [entry] }
  else none

def nextSeq (now : ℕ) : ℕ := max (stream.seq + 1) now

/-- `APPEND_SCRIPT` without its trimming. The clock stays moved when `XADD` fails. -/
def append (now : ℕ) (input : LiveBusInput) (body : JSString) : RedisStream :=
  let seq := stream.nextSeq now
  let n := stream.n + 1
  let stream := { stream with
    seq := seq,
    n := n }
  match stream.add ⟨StreamId.mk seq 0, [js "n", decimal n, js "e", body]⟩ with
  | none => stream
  | some stream => { stream with appended := stream.appended ++ [⟨⟨seq, input⟩, n⟩] }

/-- What `XREAD COUNT 1000` finds after a cursor. -/
def after (cursor : StreamId) : List StreamEntry :=
  (stream.entries.filter fun entry => cursor < entry.id).take 1000

end RedisStream

inductive ListenerCall
  | event (event : LiveBusEvent)
  | gap (head : ℕ)
  | down

/-- A call of the listener. `asOf` counts the events appended when the last request before it was
answered, by the clock or by a read. -/
structure Call where
  call : ListenerCall
  clock : Bool
  asOf : ℕ

/-- Where `follow` waits: for a read, for the clock, or to go on with what it was answered. -/
inductive Awaiting
  | read
  | answer (entries : Option (List Entry)) (asOf : ℕ)
  | clock
  | position (now : Option BusPosition) (asOf : ℕ)
  | entries (entries : List Entry) (asOf : ℕ)
  | ended

structure Follower where
  head : ℕ
  last : ℕ
  cursor : JSString
  expected : ℕ
  failures : ℕ
  down : Bool
  closed : Bool
  awaiting : Awaiting
  calls : List Call

namespace Follower

def start (now : BusPosition) : Follower where
  head := now.seq
  last := now.seq
  cursor := decimal now.seq ++ js "-0"
  expected := now.n + 1
  failures := 0
  down := false
  closed := false
  awaiting := .read
  calls := []

variable (f : Follower)

def tell (call : ListenerCall) (clock : Bool) (asOf : ℕ) : Follower :=
  { f with calls := f.calls ++ [⟨call, clock, asOf⟩] }

def deliver (entry : Entry) (asOf : ℕ) : Follower :=
  let f := { f with cursor := entry.id }
  if entry.seq = 0 then f.tell (.gap f.last) false asOf
  else
    let f := if entry.n ≠ f.expected then f.tell (.gap (entry.seq - 1)) false asOf else f
    let f := { f with
      expected := entry.n + 1,
      last := entry.seq }
    match entry.event with
    | none => f.tell (.gap entry.seq) false asOf
    | some event => f.tell (.event event) false asOf

def fail (asOf : ℕ) : Follower :=
  let f := { f with
    failures := f.failures + 1,
    awaiting := .read }
  if f.failures = 2 then { f with down := true }.tell .down false asOf else f

def recover (now : BusPosition) (asOf : ℕ) : Follower :=
  { f.tell (.gap now.seq) true asOf with
    last := now.seq,
    cursor := decimal now.seq ++ js "-0",
    expected := now.n + 1,
    down := false,
    awaiting := .read }

/-- `follow` from one wait to the next; over the entries of a reply, one of them. -/
def resume : Option Follower :=
  match f.awaiting with
  | .answer entries asOf =>
    if f.closed then some { f with awaiting := .ended }
    else
      match entries with
      | none => some (f.fail asOf)
      | some entries => some { f with
          failures := 0,
          awaiting := if f.down then .clock else .entries entries asOf }
  | .position none _ => some { f with awaiting := .read }
  | .position (some now) asOf =>
    some (if f.closed then { f with awaiting := .ended } else f.recover now asOf)
  | .entries [] _ => some { f with awaiting := .read }
  | .entries (entry :: rest) asOf =>
    some (if f.closed then { f with awaiting := .ended }
      else { f.deliver entry asOf with awaiting := .entries rest asOf })
  | _ => none

end Follower

/-- How a client shapes the entries of the one stream: RESP2, RESP3, or a `Map`. -/
inductive ReplyShape
  | resp2 (key : JSString)
  | resp3
  | map

def StreamEntry.toReply (entry : StreamEntry) : Reply :=
  .array [.text entry.id.text, .array (entry.fields.map .text)]

def ReplyShape.wrap : ReplyShape → List StreamEntry → Reply
  | _, [] => .null
  | .resp2 key, entries => .array [.array [.text key, .array (entries.map StreamEntry.toReply)]]
  | .resp3, entries => .record [.array (entries.map StreamEntry.toReply)]
  | .map, entries => .map [.array (entries.map StreamEntry.toReply)]

inductive ReadOutcome
  | failed
  | malformed (reply : Reply)
  | answered (shape : ReplyShape)

structure RedisBus where
  stream : RedisStream
  follower : Option Follower

inductive RedisAction
  | append (now : ℕ) (input : LiveBusInput)
  | foreign (entry : StreamEntry)
  | trim (count : ℕ)
  | subscribe (reply : Reply)
  | close
  | read (outcome : ReadOutcome)
  | clock (reply : Option Reply)
  | resume

namespace RedisBus

def create : RedisBus := ⟨.create, none⟩

variable (bus : RedisBus)

def follow (f : Follower) : RedisBus := { bus with follower := some f }

/-- A reply of the clock gives its seq and count, or what cannot be read as a count. -/
def Positions (reply : Reply) : Prop :=
  (reply.positionOf.seq = bus.stream.seq ∨ reply.positionOf.seq = 0) ∧
    (reply.positionOf.n = bus.stream.n ∨ reply.positionOf.n = 0)

instance (reply : Reply) : Decidable (bus.Positions reply) := inferInstanceAs (Decidable (_ ∧ _))

/-- What the follower takes from a read after `cursor`: a malformed reply has no entries. -/
def readEntries (cursor : JSString) : ReadOutcome → Option (Option (List Entry))
  | .failed => some none
  | .malformed reply =>
    if (readOf reply).all List.isEmpty then some (readOf reply) else none
  | .answered shape => do
    let cursor ← StreamId.ofText cursor
    some (readOf (shape.wrap (bus.stream.after cursor)))

def step : RedisAction → Option RedisBus
  | .append now input => do
    let value ← input.toValue
    if isSafeInteger (bus.stream.nextSeq now) then
      some { bus with stream := bus.stream.append now input value.stringify }
    else none
  | .foreign entry => do
    let stream ← bus.stream.add entry
    some { bus with stream := stream }
  | .trim count => some { bus with
      stream := { bus.stream with entries := bus.stream.entries.drop count } }
  | .subscribe reply =>
    if bus.follower.isNone ∧ bus.Positions reply then
      some (bus.follow (.start reply.positionOf))
    else none
  | .close => do
    let f ← bus.follower
    some (bus.follow { f with closed := true })
  | .read outcome => do
    let f ← bus.follower
    match f.awaiting with
    | .read => do
      let entries ← bus.readEntries f.cursor outcome
      some (bus.follow { f with awaiting := .answer entries bus.stream.appended.length })
    | _ => none
  | .clock reply => do
    let f ← bus.follower
    match f.awaiting with
    | .clock =>
      if ∀ answer ∈ reply, bus.Positions answer then
        let now := reply.map Reply.positionOf
        some (bus.follow { f with awaiting := .position now bus.stream.appended.length })
      else none
    | _ => none
  | .resume => do
    let f ← bus.follower
    let f ← f.resume
    some (bus.follow f)

end RedisBus

/-! ## The entries of the stream

An entry that `APPEND_SCRIPT` wrote is read back as it was appended, and the events appended are in
the order of their seqs and counts.
-/

namespace StreamId

theorem mk_lt_iff {time part : ℕ} {id : StreamId} :
    id < mk time part ↔ id.time < time ∨ id.time = time ∧ id.part < part :=
  Prod.Lex.lt_iff

theorem mk_le_mk_iff {m n : ℕ} : mk m 0 ≤ mk n 0 ↔ m ≤ n := by
  rw [← not_lt, mk_lt_iff]
  simp [mk, time, part]

theorem mk_lt_mk_iff {m n : ℕ} : mk m 0 < mk n 0 ↔ m < n := by
  rw [mk_lt_iff]
  simp [mk, time, part]

theorem text_mk_zero {n : ℕ} : (mk n 0).text = decimal n ++ js "-0" := List.append_assoc _ _ _

theorem time_le_time {a b : StreamId} (h : a ≤ b) : a.time ≤ b.time := Prod.Lex.monotone_fst _ _ h

theorem time_lt_of_lt_mk {id : StreamId} {time : ℕ} (h : id < mk time 0) : id.time < time := by
  rcases mk_lt_iff.mp h with h | ⟨-, h⟩
  · exact h
  · exact absurd h (Nat.not_lt_zero _)

theorem splitOn_text (id : StreamId) :
    id.text.splitOn 45 = [decimal id.time, decimal id.part] := by
  have hjoin : id.text = [45].intercalate [decimal id.time, decimal id.part] := by
    simp [text, js, JSString.utf16]
  have hdash (n : ℕ) : 45 ∉ decimal n := fun hmem => by
    have := digit_of_mem_decimal hmem
    omega
  rw [hjoin, List.splitOn_intercalate _ (by simp [hdash]) (by simp)]

theorem ofText_text (id : StreamId) : ofText id.text = some id := by
  have hne (n : ℕ) : decimal n ≠ [] := by
    rcases JSON.decimal_cases n with h | ⟨c, digits, h, -⟩ <;> simp [h]
  have hdigits (n : ℕ) : (decimal n).all JSON.isDigit = true :=
    List.all_eq_true.mpr fun c hc => JSON.isDigit_of_mem_decimal hc
  simp only [ofText, splitOn_text, hne, hdigits, ne_eq, not_false_eq_true, and_self, if_true,
    JSON.natOfDigits_decimal]
  rfl

theorem seqOf_text (id : StreamId) :
    seqOf id.text = if id.part = 0 then countOfNat id.time else 0 := by
  have hzero : decimal id.part = js "0" ↔ id.part = 0 := by
    have hjs : js "0" = decimal 0 := rfl
    rw [hjs, decimal_injective.eq_iff]
  simp only [seqOf, splitOn_text, hzero, countOfText_decimal]

end StreamId

theorem keysOf_map (keys : List JSString) : keysOf (keys.map .string) = keys := by
  simp [keysOf, List.filterMap_map]

theorem inputOf_toValue {input : LiveBusInput} {value : Value} (h : input.toValue = some value) :
    inputOf value = some input := by
  cases input with
  | change keys =>
    obtain rfl := Option.some.inj h
    change some (LiveBusInput.change (keysOf (keys.map .string))) = _
    rw [keysOf_map]
  | revoke sub key =>
    obtain rfl := Option.some.inj h
    cases sub <;> cases key <;> rfl
  | malformed => cases h

theorem plainItems_map (keys : List JSString) : JSON.PlainItems (keys.map .string) := by
  induction keys with
  | nil => exact .nil
  | cons key keys ih => exact .cons (.string key) ih

theorem plain_of_toValue {input : LiveBusInput} {value : Value} (h : input.toValue = some value) :
    JSON.Plain value := by
  have hnullable (text : Option JSString) : JSON.Plain (text.elim .null .string) := by
    cases text with
    | none => exact .null
    | some text => exact .string text
  cases input with
  | change keys =>
    obtain rfl := Option.some.inj h
    exact .object (.cons (.string _) (.cons (.array (plainItems_map keys)) .nil)) <| by
      simp only [List.map_cons, List.map_nil]
      decide
  | revoke sub key =>
    obtain rfl := Option.some.inj h
    exact .object (.cons (.string _) (.cons (hnullable sub) (.cons (hnullable key) .nil))) <| by
      simp only [List.map_cons, List.map_nil]
      decide
  | malformed => cases h

theorem eventOf_stringify {input : LiveBusInput} {value : Value} (h : input.toValue = some value)
    (seq : ℕ) : eventOf (.text value.stringify) seq = some ⟨seq, input⟩ := by
  simp [eventOf, JSON.parse_stringify (plain_of_toValue h), inputOf_toValue h]

namespace StreamEntry
variable (entry : StreamEntry)

def read : Entry :=
  let (n, body) := fieldsOf (entry.fields.map .text) (0, .undefined)
  let seq := seqOf entry.id.text
  ⟨entry.id.text, seq, n, if seq = 0 then none else eventOf body seq⟩

theorem entryOf_toReply : entryOf entry.toReply = some entry.read := rfl

@[simp] theorem read_id : entry.read.id = entry.id.text := rfl

theorem read_seq : entry.read.seq = if entry.id.part = 0 then countOfNat entry.id.time else 0 :=
  StreamId.seqOf_text entry.id

theorem read_seq_eq_time (h : entry.read.seq ≠ 0) : entry.read.seq = entry.id.time := by
  rw [read_seq] at h ⊢
  split at h
  · next hpart =>
    rw [if_pos hpart]
    exact (countOfNat_cases entry.id.time).resolve_right h
  · exact absurd rfl h

end StreamEntry

theorem readOf_wrap (shape : ReplyShape) (entries : List StreamEntry) :
    readOf (shape.wrap entries) = some (entries.map StreamEntry.read) := by
  have hentries (entries : List StreamEntry) :
      (entries.map StreamEntry.toReply).mapM entryOf = some (entries.map StreamEntry.read) := by
    induction entries with
    | nil => rfl
    | cons entry entries ih => simp [List.mapM_cons, ih, StreamEntry.entryOf_toReply]
  cases entries with
  | nil => cases shape <;> rfl
  | cons entry entries =>
    have hall := hentries (entry :: entries)
    cases shape <;>
      simpa [ReplyShape.wrap, readOf, entriesOf, streamsOf, Reply.items?] using hall

namespace Appended
variable (a : Appended)

abbrev seq : ℕ := a.event.seq

def Writes (entry : StreamEntry) : Prop :=
  ∃ value, a.event.input.toValue = some value ∧
    entry = ⟨StreamId.mk a.seq 0, [js "n", decimal a.n, js "e", value.stringify]⟩

variable {a} {entry : StreamEntry}

theorem Writes.read (h : a.Writes entry) (hseq : 0 < a.seq) (hsafe : isSafeInteger a.seq)
    (hn : isSafeInteger a.n) : entry.read = ⟨entry.id.text, a.seq, a.n, some a.event⟩ := by
  obtain ⟨value, hvalue, rfl⟩ := h
  have hid : seqOf (StreamId.mk a.seq 0).text = a.seq := by
    rw [StreamId.seqOf_text]
    exact countOfNat_of_safe hsafe
  have hfields : fieldsOf [.text (js "n"), .text (decimal a.n), .text (js "e"),
      .text value.stringify] (0, .undefined) = (a.n, .text value.stringify) := by
    have hcount := countOfNat_of_safe hn
    rw [← countOfText_decimal] at hcount
    change (countOfText (decimal a.n), _) = _
    rw [hcount]
  have hevent := eventOf_stringify hvalue a.seq
  simp [StreamEntry.read, hfields, hid, hevent, hseq.ne']

end Appended

def StreamEntry.Harmless (entry : StreamEntry) : Prop :=
  entry.read.seq ≠ 0 → entry.read.n = 0 ∧ entry.read.event = none

def StreamEntry.Known (appended : List Appended) (entry : StreamEntry) : Prop :=
  (∃ a ∈ appended, a.Writes entry) ∨ entry.Harmless

theorem StreamEntry.Known.mono {appended news : List Appended} {entry : StreamEntry}
    (h : entry.Known appended) : entry.Known (appended ++ news) :=
  h.imp_left fun ⟨a, ha, hwrites⟩ => ⟨a, List.mem_append_left _ ha, hwrites⟩

namespace RedisStream
variable {stream next : RedisStream} {entry : StreamEntry}

def reach (stream : RedisStream) : ℕ := max stream.seq stream.top.time

/-- Seqs and counts grow with every event, and the stream is in the order of its ids. -/
structure Sound (stream : RedisStream) : Prop where
  ordered : stream.appended.Pairwise fun a b => a.seq < b.seq ∧ a.n < b.n
  below : ∀ a ∈ stream.appended, a.seq ≤ stream.seq ∧ a.n ≤ stream.n ∧ 0 < a.seq ∧ 0 < a.n
  counted : stream.n ≤ stream.seq
  safe : isSafeInteger stream.seq
  sorted : stream.entries.Pairwise fun a b => a.id < b.id
  under : ∀ entry ∈ stream.entries, entry.id ≤ stream.top
  known : ∀ entry ∈ stream.entries, entry.Known stream.appended

theorem Sound.compare (h : stream.Sound) {a b : Appended} (ha : a ∈ stream.appended)
    (hb : b ∈ stream.appended) :
    a = b ∨ a.seq < b.seq ∧ a.n < b.n ∨ b.seq < a.seq ∧ b.n < a.n :=
  List.Pairwise.forall_of_forall_of_flip
    (R := fun a b => a = b ∨ a.seq < b.seq ∧ a.n < b.n ∨ b.seq < a.seq ∧ b.n < a.n)
    (fun _ _ => Or.inl rfl) (h.ordered.imp fun hlt => Or.inr (Or.inl hlt))
    (h.ordered.imp fun hlt => Or.inr (Or.inr hlt)) ha hb

theorem isSafeInteger_of_le {m n : ℕ} (h : isSafeInteger n) (hle : m ≤ n) : isSafeInteger m :=
  decide_eq_true (hle.trans (of_decide_eq_true h))

theorem Sound.read_own (h : stream.Sound) {a : Appended} (ha : a ∈ stream.appended)
    (hwrites : a.Writes entry) : entry.id = StreamId.mk a.seq 0 ∧
      entry.read = ⟨(StreamId.mk a.seq 0).text, a.seq, a.n, some a.event⟩ := by
  obtain ⟨hseq, hn, hpos, -⟩ := h.below a ha
  have hid : entry.id = StreamId.mk a.seq 0 := by
    obtain ⟨value, -, rfl⟩ := hwrites
    rfl
  have hread := hwrites.read hpos (isSafeInteger_of_le h.safe hseq)
    (isSafeInteger_of_le h.safe (hn.trans h.counted))
  rw [hid] at hread
  exact ⟨hid, hread⟩

/-- What is appended later is above the reach of the stream and its count. -/
structure Grows (stream next : RedisStream) : Prop where
  appended : ∃ news, next.appended = stream.appended ++ news ∧
    ∀ a ∈ news, stream.reach < a.seq ∧ stream.n < a.n
  reach : stream.reach ≤ next.reach
  seq : stream.seq ≤ next.seq
  n : stream.n ≤ next.n

theorem add_eq_some (h : stream.add entry = some next) : stream.top < entry.id ∧
    next = { stream with
      top := entry.id,
      entries := stream.entries ++ [entry] } := by
  unfold add at h
  split at h
  · next hlt => exact ⟨hlt, (Option.some.inj h).symm⟩
  · cases h

theorem reach_le_of_add (h : stream.add entry = some next) : stream.reach ≤ next.reach := by
  obtain ⟨hlt, rfl⟩ := add_eq_some h
  exact max_le_max le_rfl (StreamId.time_le_time hlt.le)

theorem Sound.entries_add (h : stream.Sound) (hadd : stream.add entry = some next) :
    next.entries.Pairwise (fun a b => a.id < b.id) ∧
      ∀ entry ∈ next.entries, entry.id ≤ next.top := by
  obtain ⟨hlt, rfl⟩ := add_eq_some hadd
  constructor
  · refine List.pairwise_append.mpr ⟨h.sorted, List.pairwise_singleton _ _, ?_⟩
    rintro a ha b hb
    rw [List.mem_singleton.mp hb]
    exact (h.under a ha).trans_lt hlt
  · intro e he
    rcases List.mem_append.mp he with he | he
    · exact (h.under e he).trans hlt.le
    · rw [List.mem_singleton.mp he]

theorem Sound.foreign (h : stream.Sound) (hentry : entry.Harmless)
    (hadd : stream.add entry = some next) : next.Sound ∧ stream.Grows next := by
  obtain ⟨hsorted, hunder⟩ := h.entries_add hadd
  have hreach := reach_le_of_add hadd
  obtain ⟨-, rfl⟩ := add_eq_some hadd
  constructor
  · refine ⟨h.ordered, h.below, h.counted, h.safe, hsorted, hunder, ?_⟩
    intro e he
    rcases List.mem_append.mp he with he | he
    · exact h.known e he
    · rw [List.mem_singleton.mp he]
      exact Or.inr hentry
  · exact ⟨⟨[], by simp⟩, hreach, le_rfl, le_rfl⟩

theorem Sound.trim (h : stream.Sound) (count : ℕ) :
    Sound { stream with entries := stream.entries.drop count } ∧
      stream.Grows { stream with entries := stream.entries.drop count } := by
  constructor
  · exact ⟨h.ordered, h.below, h.counted, h.safe, h.sorted.sublist (List.drop_sublist _ _),
      fun e he => h.under e (List.mem_of_mem_drop he),
      fun e he => h.known e (List.mem_of_mem_drop he)⟩
  · exact ⟨⟨[], by simp⟩, le_rfl, le_rfl, le_rfl⟩

theorem Sound.append (h : stream.Sound) {now : ℕ} {input : LiveBusInput} {value : Value}
    (hvalue : input.toValue = some value) (hsafe : isSafeInteger (stream.nextSeq now)) :
    (stream.append now input value.stringify).Sound ∧
      stream.Grows (stream.append now input value.stringify) := by
  have hseq : stream.seq < stream.nextSeq now := Nat.lt_of_succ_le (le_max_left _ _)
  have hcount : stream.n + 1 ≤ stream.nextSeq now := by
    have := h.counted
    omega
  have hticked : Sound { stream with
      seq := stream.nextSeq now,
      n := stream.n + 1 } :=
    ⟨h.ordered, fun a ha => ⟨(h.below a ha).1.trans hseq.le,
      (h.below a ha).2.1.trans (Nat.le_succ _), (h.below a ha).2.2⟩,
      hcount, hsafe, h.sorted, h.under, h.known⟩
  have hticks : stream.reach ≤ reach { stream with
      seq := stream.nextSeq now,
      n := stream.n + 1 } := max_le_max hseq.le le_rfl
  unfold RedisStream.append
  dsimp only
  split
  · exact ⟨hticked, ⟨[], by simp⟩, hticks, hseq.le, Nat.le_succ _⟩
  · next next hadd =>
    obtain ⟨hsorted, hunder⟩ := hticked.entries_add hadd
    have hreach := hticks.trans (reach_le_of_add hadd)
    obtain ⟨hlt, rfl⟩ := add_eq_some hadd
    have habove : stream.reach < stream.nextSeq now :=
      max_lt hseq (StreamId.time_lt_of_lt_mk hlt)
    constructor
    · constructor
      · refine List.pairwise_append.mpr ⟨h.ordered, List.pairwise_singleton _ _, ?_⟩
        rintro a ha b hb
        rw [List.mem_singleton.mp hb]
        exact ⟨(h.below a ha).1.trans_lt hseq, Nat.lt_succ_of_le (h.below a ha).2.1⟩
      · intro a ha
        rcases List.mem_append.mp ha with ha | ha
        · exact hticked.below a ha
        · rw [List.mem_singleton.mp ha]
          exact ⟨le_rfl, le_rfl, (Nat.zero_le _).trans_lt hseq, Nat.succ_pos _⟩
      · exact hcount
      · exact hsafe
      · exact hsorted
      · exact hunder
      · intro e he
        rcases List.mem_append.mp he with he | he
        · exact (h.known e he).mono
        · rw [List.mem_singleton.mp he]
          exact Or.inl ⟨_, List.mem_append_right _ (List.mem_singleton_self _), value, hvalue, rfl⟩
    · refine ⟨⟨_, rfl, ?_⟩, hreach, hseq.le, Nat.le_succ _⟩
      intro a ha
      rw [List.mem_singleton.mp ha]
      exact ⟨habove, Nat.lt_succ_self _⟩

end RedisStream

end Nifra.Live
