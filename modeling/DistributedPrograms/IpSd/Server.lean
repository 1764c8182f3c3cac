import Mathlib.Data.Finset.Insert
import Mathlib.Data.List.TakeDrop

/-!
# The service discovery server

`ip-sd/src/main.rs`: a loop that receives a datagram into one buffer, decodes the buffer and answers
a query or registers an address.

The buffer outlives its datagram.  `recv_from` overwrites as much of it as has arrived, and
`from_slice` is given all of it, so what a datagram means may depend on what stood behind it before.
`reactsAlike_iff` says for which datagrams it does not.

* `Server` is what the loop keeps between two datagrams: the buffer, whose length is a field, and
  the set of addresses.  `Server.run` is the server after a whole history of events.
* `ReactsAlike addr bytes`: after any two histories that leave the same addresses, the server reacts
  alike to the datagram.  It is about histories, and not about buffers, because a buffer is nothing
  that anybody can see.
* `Settled bytes` is the condition: whatever fills the buffer behind the datagram, it decodes to the
  same request, or never to one.  It does not mention the server.

For the direction from histories to buffers, any rest of the buffer has to be the work of some
history.  A datagram as long as the buffer leaves exactly itself there, and two of them leave the
same addresses in either order but different rests (`run_pair`).

`rmp_serde::from_slice` is a parameter, its errors left out: the server only logs them.  `Front` is
what it does as far as its documentation goes, to decode one value from the front and ignore what
follows, and under it every whole request settles by itself.  A part of it, for requests with short
strings, is written out for the run at the end.
-/

set_option autoImplicit false

namespace DistributedPrograms
namespace IpSd

/-! ## The server

The state of the loop, and one round of it.  What `from_slice` decodes is a parameter. -/

inductive Request where
  | query
  | register (addr : String)
  deriving DecidableEq, Repr

/-- The length of `buf`. -/
def bufLen : Nat := 2048

/-- What the loop keeps between two datagrams.  The buffer is one of them: it is never cleared, and
always as long as it was made. -/
structure Server where
  buf : List UInt8
  addresses : Finset String
  length_buf : buf.length = bufLen

/-- What `recv_from` gives the loop: a datagram with its sender, or an error. -/
inductive Event (A : Type) where
  | datagram (bytes : List UInt8) (addr : A)
  | error
  deriving DecidableEq, Repr

/-- What the loop does about an event, as far as anybody can tell.  An error of `recv_from` and a
datagram that does not decode are told apart by nobody. -/
inductive Reaction (A : Type) where
  /-- the addresses are sent to `addr` -/
  | response (addresses : Finset String) (addr : A)
  | registered (addr : String)
  /-- the error is logged -/
  | rejected
  deriving DecidableEq

namespace Server

variable {A : Type}

/-- The server before its first datagram. -/
def init : Server := ⟨List.replicate bufLen 0, ∅, List.length_replicate⟩

/-- `recv_from`: a datagram takes the first bytes of the buffer, or all of it if it is longer.  What
was in the others before stays there. -/
def recvFrom (s : Server) (bytes : List UInt8) : Server where
  buf := bytes.take bufLen ++ s.buf.drop bytes.length
  addresses := s.addresses
  length_buf := by
    have hlen := s.length_buf
    rw [List.length_append, List.length_take, List.length_drop]
    omega

/-- What is done about the outcome of `from_slice`. -/
def handle (s : Server) (addr : A) : Option Request → Reaction A × Server
  | some .query => (.response s.addresses addr, s)
  | some (.register a) => (.registered a, { s with addresses := insert a s.addresses })
  | none => (.rejected, s)

/-- One round of the loop.  The whole buffer is decoded, and not the part that the datagram has
taken. -/
def step (fromSlice : List UInt8 → Option Request) (s : Server) : Event A → Reaction A × Server
  | .datagram bytes addr => (s.recvFrom bytes).handle addr (fromSlice (s.recvFrom bytes).buf)
  | .error => (.rejected, s)

/-- The server after the events of `history`, the first one first. -/
def run (fromSlice : List UInt8 → Option Request) (history : List (Event A)) : Server :=
  history.foldl (fun s event => (s.step fromSlice event).2) init

end Server

/-! ## What the leftovers decide

Two servers with the same addresses differ in what stands in the buffer behind the datagram.  What
they do about the datagram tells what they have decoded. -/

section

variable {A : Type} (fromSlice : List UInt8 → Option Request)

/-- After any two histories that leave the same addresses, the server reacts alike to the datagram.
What else the histories may leave is in the buffer. -/
def ReactsAlike (addr : A) (bytes : List UInt8) : Prop :=
  ∀ history history' : List (Event A),
    (Server.run fromSlice history).addresses = (Server.run fromSlice history').addresses →
    ((Server.run fromSlice history).step fromSlice (.datagram bytes addr)).1 =
      ((Server.run fromSlice history').step fromSlice (.datagram bytes addr)).1

/-- Whatever fills the buffer behind the datagram, it is the same request, or never one.  This is
about the datagram and the decoder alone. -/
def Settled (bytes : List UInt8) : Prop :=
  (∃ req, ∀ rest : List UInt8, rest.length = bufLen - bytes.length →
      fromSlice (bytes.take bufLen ++ rest) = some req) ∨
    ∀ rest : List UInt8, rest.length = bufLen - bytes.length →
      fromSlice (bytes.take bufLen ++ rest) = none

end

namespace Server

variable {A : Type} {fromSlice : List UInt8 → Option Request} {s : Server} {addr : A}
  {bytes : List UInt8}

theorem handle_buf (s : Server) (addr : A) (o : Option Request) : (s.handle addr o).2.buf = s.buf := by
  rcases o with _ | _ | a <;> rfl

theorem handle_addresses (s : Server) (addr : A) (o : Option Request) :
    (s.handle addr o).2.addresses =
      match o with
      | some (.register a) => insert a s.addresses
      | _ => s.addresses := by
  rcases o with _ | _ | a <;> rfl

/-- **The reaction tells what was decoded**, and depends on nothing else but the addresses, so a
different request is always noticed. -/
theorem handle_eq_iff {t : Server} (h : s.addresses = t.addresses) {o o' : Option Request} :
    (s.handle addr o).1 = (t.handle addr o').1 ↔ o = o' := by
  rcases o with _ | _ | a <;> rcases o' with _ | _ | b <;> simp [handle, h]

theorem step_eq_iff {t : Server} (h : s.addresses = t.addresses) :
    (s.step fromSlice (.datagram bytes addr)).1 = (t.step fromSlice (.datagram bytes addr)).1 ↔
      fromSlice (s.recvFrom bytes).buf = fromSlice (t.recvFrom bytes).buf :=
  handle_eq_iff (s := s.recvFrom bytes) (t := t.recvFrom bytes) h

/-- Behind the datagram the buffer is as it was. -/
theorem recvFrom_buf (s : Server) (bytes : List UInt8) :
    ∃ rest, rest.length = bufLen - bytes.length ∧
      (s.recvFrom bytes).buf = bytes.take bufLen ++ rest :=
  ⟨s.buf.drop bytes.length, by rw [List.length_drop, s.length_buf], rfl⟩

/-- A datagram as long as the buffer leaves nothing of it. -/
theorem recvFrom_full (s : Server) (h : bytes.length = bufLen) : (s.recvFrom bytes).buf = bytes := by
  show bytes.take bufLen ++ s.buf.drop bytes.length = bytes
  rw [h, ← s.length_buf, List.drop_length, List.append_nil, s.length_buf, ← h, List.take_length]

/-- Two datagrams as long as the buffer: the second one stays, and the addresses do not tell which
came first. -/
theorem run_pair (addr : A) {full full' : List UInt8} (h : full.length = bufLen)
    (h' : full'.length = bufLen) :
    (run fromSlice [.datagram full' addr, .datagram full addr]).buf = full ∧
      (run fromSlice [.datagram full' addr, .datagram full addr]).addresses =
        (run fromSlice [.datagram full addr, .datagram full' addr]).addresses := by
  refine ⟨?_, ?_⟩
  · show ((recvFrom _ full).handle addr _).2.buf = full
    rw [handle_buf, recvFrom_full _ h]
  · show ((recvFrom _ full).handle addr (fromSlice (recvFrom _ full).buf)).2.addresses =
      ((recvFrom _ full').handle addr (fromSlice (recvFrom _ full').buf)).2.addresses
    rw [handle_addresses, handle_addresses, recvFrom_full _ h, recvFrom_full _ h']
    show (match fromSlice full with
        | some (.register a) => insert a ((recvFrom init full').handle addr _).2.addresses
        | _ => ((recvFrom init full').handle addr _).2.addresses) =
      match fromSlice full' with
        | some (.register a) => insert a ((recvFrom init full).handle addr _).2.addresses
        | _ => ((recvFrom init full).handle addr _).2.addresses
    rw [handle_addresses, handle_addresses, recvFrom_full _ h, recvFrom_full _ h']
    rcases fromSlice full with _ | _ | a <;> rcases fromSlice full' with _ | _ | b <;>
      first | rfl | exact Finset.insert_comm ..

/-- Behind a datagram of a full buffer stands what stood there. -/
theorem recvFrom_of_buf {rest : List UInt8} (hrest : rest.length = bufLen - bytes.length)
    (h : s.buf = bytes.take bufLen ++ rest) : (s.recvFrom bytes).buf = bytes.take bufLen ++ rest := by
  show bytes.take bufLen ++ s.buf.drop bytes.length = bytes.take bufLen ++ rest
  rw [h]
  rcases Nat.le_total bytes.length bufLen with hle | hle
  · rw [List.take_of_length_le hle, List.drop_left]
  · have hnil : rest = [] := List.eq_nil_of_length_eq_zero (by omega)
    rw [hnil, List.append_nil, List.drop_eq_nil_of_le (by rw [List.length_take]; omega),
      List.append_nil]

end Server

open Server

variable {A : Type} {fromSlice : List UInt8 → Option Request} {addr : A} {bytes : List UInt8}

/-- A datagram that does not depend on what follows it is decoded to one outcome. -/
theorem settled_iff : Settled fromSlice bytes ↔
    ∀ rest rest' : List UInt8, rest.length = bufLen - bytes.length →
      rest'.length = bufLen - bytes.length →
      fromSlice (bytes.take bufLen ++ rest) = fromSlice (bytes.take bufLen ++ rest') := by
  constructor
  · rintro (⟨req, h⟩ | h) rest rest' hrest hrest'
    · rw [h rest hrest, h rest' hrest']
    · rw [h rest hrest, h rest' hrest']
  · intro h
    have hzero : (List.replicate (bufLen - bytes.length) (0 : UInt8)).length =
        bufLen - bytes.length := List.length_replicate
    cases ho : fromSlice (bytes.take bufLen ++ List.replicate (bufLen - bytes.length) 0) with
    | none => exact Or.inr fun rest hrest => (h rest _ hrest hzero).trans ho
    | some req => exact Or.inl ⟨req, fun rest hrest => (h rest _ hrest hzero).trans ho⟩

/-- **Datagrams do not leak into one that settles by itself, and into no other.**  For the second
half histories are made up whose last datagrams fill the buffer as needed. -/
theorem reactsAlike_iff (fromSlice : List UInt8 → Option Request) (addr : A) (bytes : List UInt8) :
    ReactsAlike fromSlice addr bytes ↔ Settled fromSlice bytes := by
  rw [settled_iff]
  constructor
  · intro h rest rest' hrest hrest'
    -- the two buffers can stand there after histories that the addresses do not tell apart
    have hfull : (bytes.take bufLen ++ rest).length = bufLen := by
      rw [List.length_append, List.length_take]
      omega
    have hfull' : (bytes.take bufLen ++ rest').length = bufLen := by
      rw [List.length_append, List.length_take]
      omega
    obtain ⟨hbuf, haddresses⟩ := run_pair addr hfull hfull'
    obtain ⟨hbuf', -⟩ := run_pair addr hfull' hfull
    have hreact := (step_eq_iff haddresses).1 (h _ _ haddresses)
    rwa [recvFrom_of_buf hrest hbuf, recvFrom_of_buf hrest' hbuf'] at hreact
  · intro h history history' haddresses
    obtain ⟨rest, hrest, hbuf⟩ := recvFrom_buf (run fromSlice history) bytes
    obtain ⟨rest', hrest', hbuf'⟩ := recvFrom_buf (run fromSlice history') bytes
    refine (step_eq_iff haddresses).2 ?_
    rw [hbuf, hbuf']
    exact h rest rest' hrest hrest'

/-- `from_slice` decodes one value from the front and ignores what follows. -/
def Front (fromSlice : List UInt8 → Option Request) : Prop :=
  ∀ b rest req, fromSlice b = some req → fromSlice (b ++ rest) = some req

/-- So a whole request settles by itself. -/
theorem Front.settled (hfront : Front fromSlice) {req : Request} (hlen : bytes.length ≤ bufLen)
    (h : fromSlice bytes = some req) : Settled fromSlice bytes := by
  refine Or.inl ⟨req, fun rest _ => ?_⟩
  rw [List.take_of_length_le hlen]
  exact hfront bytes rest req h

/-! ## A run -/

/-- A string of at most 31 bytes, at the front of `b`. -/
def fixStr : List UInt8 → Option (List UInt8)
  | [] => none
  | len :: rest =>
    if 0xa0 ≤ len ∧ len ≤ 0xbf ∧ len.toNat - 0xa0 ≤ rest.length then
      some (rest.take (len.toNat - 0xa0))
    else none

/-- The requests with short strings: a query is its name, a registration a map of one entry from its
name to the address. -/
def fromFixSlice (b : List UInt8) : Option Request :=
  if b.head? = some 0x81 then
    if fixStr b.tail = some [82, 101, 103, 105, 115, 116, 101, 114] then
      (fixStr (b.drop 10)).map fun addr =>
        .register (String.ofList (addr.map fun c => Char.ofNat c.toNat))
    else none
  else if fixStr b = some [81, 117, 101, 114, 121] then some .query
  else none

theorem fixStr_append {b str : List UInt8} (rest : List UInt8) (h : fixStr b = some str) :
    b ≠ [] ∧ fixStr (b ++ rest) = some str := by
  cases b with
  | nil => contradiction
  | cons len b =>
    refine ⟨List.cons_ne_nil _ _, ?_⟩
    rw [fixStr] at h
    obtain ⟨⟨hlow, hhigh, hlen⟩, hstr⟩ := Option.ite_none_right_eq_some.1 h
    have hlen' : len.toNat - 0xa0 ≤ (b ++ rest).length := by
      rw [List.length_append]
      omega
    rw [List.cons_append, fixStr, if_pos ⟨hlow, hhigh, hlen'⟩, List.take_append_of_le_length hlen]
    exact hstr

theorem front_fromFixSlice : Front fromFixSlice := by
  intro b rest req h
  rw [fromFixSlice] at h
  split at h
  · next hhead =>
    obtain ⟨b, rfl⟩ := List.head?_eq_some_iff.1 hhead
    obtain ⟨hname, h⟩ := Option.ite_none_right_eq_some.1 h
    obtain ⟨addr, haddr, rfl⟩ := Option.map_eq_some_iff.1 h
    obtain ⟨hne, haddr'⟩ := fixStr_append rest haddr
    have hlen : 10 < (0x81 :: b).length := Nat.lt_of_not_le fun hle => hne (List.drop_eq_nil_of_le hle)
    have hdrop : (0x81 :: b ++ rest).drop 10 = (0x81 :: b).drop 10 ++ rest :=
      List.drop_append_of_le_length hlen.le
    have hhead' : (0x81 :: b ++ rest).head? = some 0x81 := rfl
    have hname' : fixStr (0x81 :: b ++ rest).tail = some [82, 101, 103, 105, 115, 116, 101, 114] :=
      (fixStr_append rest hname).2
    rw [fromFixSlice, if_pos hhead', if_pos hname', hdrop, haddr', Option.map_some]
  · next hhead =>
    obtain ⟨hname, h⟩ := Option.ite_none_right_eq_some.1 h
    obtain ⟨hne, hname'⟩ := fixStr_append rest hname
    rw [fromFixSlice, List.head?_append_of_ne_nil b hne, if_neg hhead, if_pos hname', h]

/-- The datagram of a query. -/
def queryBytes : List UInt8 := [0xa5, 81, 117, 101, 114, 121]

/-- Behind a query an empty datagram is one too.  Behind a query and a byte that no MessagePack
value begins with it is rejected. -/
theorem not_reactsAlike :
    ∃ fromSlice, Front fromSlice ∧ ∃ bytes, ¬ReactsAlike fromSlice (1 : Nat) bytes := by
  refine ⟨fromFixSlice, front_fromFixSlice, [], fun h => ?_⟩
  have hreact := h [.datagram queryBytes 0] [.datagram queryBytes 0, .datagram [0xc1] 0]
    (by decide +kernel)
  have hresponse : ((run fromFixSlice [.datagram queryBytes 0]).step fromFixSlice
      (.datagram [] (1 : Nat))).1 = .response ∅ 1 := by
    decide +kernel
  have hrejected : ((run fromFixSlice [.datagram queryBytes 0, .datagram [0xc1] 0]).step
      fromFixSlice (.datagram [] (1 : Nat))).1 = .rejected := by
    decide +kernel
  rw [hresponse, hrejected] at hreact
  contradiction

end IpSd
end DistributedPrograms
