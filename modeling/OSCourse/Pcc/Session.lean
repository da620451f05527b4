import OSCourse.Pcc.Server

/-!
# What the server knows of a session

* `Session` — the bytes read from and written to the client of the current connection, as a
  history of the server tells them; `completed` lists the streams of the sessions whose reply was
  written completely.
* `SessionInv` — at every point of the program the local variables and `pcc_client` describe the
  session so far; `session_step` is the step and `session_run` the run.
-/

set_option autoImplicit false

namespace OSCourse.Pcc

open Bytes Transition

/-! ## Sessions in a history -/

/-- The bytes of the current connection in both directions. -/
structure Session where
  received : List UInt8
  sent : List UInt8
  deriving DecidableEq, Repr

def Session.empty : Session := ⟨[], []⟩

def Session.after (g : Session) : ServerEvent → Session
  | .accepted => .empty
  | .received bytes => { g with received := g.received ++ bytes }
  | .sent bytes => { g with sent := g.sent ++ bytes }
  | _ => g

/-- The session that a history, latest event first, ends in. -/
def sessionOf : List ServerEvent → Session
  | [] => .empty
  | ev :: h => (sessionOf h).after ev

/-- What came after the four bytes of the size. -/
def Session.stream (g : Session) : List UInt8 := g.received.drop 4

/-- The streams received in the sessions whose four reply bytes were all written. -/
def completed : List ServerEvent → List (List UInt8)
  | [] => []
  | .sent bytes :: h =>
    if (sessionOf h).sent.length + bytes.length = 4 then (sessionOf h).stream :: completed h
    else completed h
  | _ :: h => completed h

/-- The character that the counter `i` is for. -/
def charOf (i : Fin PRINABLE_CHARS_AMOUNT) : UInt8 := UInt8.ofNat (i.val + MIN_PRINTABLE_CHAR)

/-- How often each printable character occurs, modulo `2 ^ 32`. -/
def countsOf (stream : List UInt8) : Counters := fun i => BitVec.ofNat 32 (stream.count (charOf i))

/-- The number of printable characters, modulo `2 ^ 32`. -/
def printableOf (stream : List UInt8) : BitVec 32 := BitVec.ofNat 32 (stream.countP isPrintable)

/-- The occurrences of each character in some streams, modulo `2 ^ 32`. -/
def sumOf (streams : List (List UInt8)) : Counters :=
  fun i => BitVec.ofNat 32 ((streams.map fun stream => stream.count (charOf i)).sum)

theorem charOf_toNat (i : Fin PRINABLE_CHARS_AMOUNT) : (charOf i).toNat = i.val + 32 := by
  have hi : i.val < 95 := i.isLt
  rw [charOf, UInt8.toNat_ofNat', MIN_PRINTABLE_CHAR]
  omega

theorem countsOf_append (a b : List UInt8) (i : Fin PRINABLE_CHARS_AMOUNT) :
    countsOf (a ++ b) i = countsOf a i + countsOf b i := by
  rw [countsOf, countsOf, countsOf, List.count_append, BitVec.ofNat_add]

theorem printableOf_append (a b : List UInt8) :
    printableOf (a ++ b) = printableOf a + printableOf b := by
  rw [printableOf, printableOf, printableOf, List.countP_append, BitVec.ofNat_add]

theorem sumOf_nil (i : Fin PRINABLE_CHARS_AMOUNT) : sumOf [] i = 0#32 := rfl

theorem sumOf_cons (stream : List UInt8) (streams : List (List UInt8))
    (i : Fin PRINABLE_CHARS_AMOUNT) :
    sumOf (stream :: streams) i = countsOf stream i + sumOf streams i := by
  simp [sumOf, countsOf, BitVec.ofNat_add]

/-- One round of `update_pcc_client` counts one more character. -/
theorem countChar_spec (stream : List UInt8) (n : BitVec 32) (c : UInt8) :
    countChar (countsOf stream) n c =
      (countsOf (stream ++ [c]), if isPrintable c then n + 1 else n) := by
  have hcount : ∀ i, (isPrintable c = true ∧ i.val = c.toNat - MIN_PRINTABLE_CHAR) ↔ c = charOf i := by
    intro i
    have hi : i.val < 95 := i.isLt
    rw [← UInt8.toNat_inj, charOf_toNat, isPrintable, decide_eq_true_iff, MIN_PRINTABLE_CHAR,
      MAX_PRINTABLE_CHAR]
    omega
  have hcounts : ∀ i, countsOf (stream ++ [c]) i =
      if c = charOf i then countsOf stream i + 1 else countsOf stream i := by
    intro i
    rw [countsOf, countsOf, List.count_append, List.count_singleton]
    by_cases h : c = charOf i
    · simp [h, BitVec.ofNat_add]
    · simp [h]
  unfold countChar
  by_cases hp : isPrintable c = true
  · rw [if_pos hp, if_pos hp]
    rw [Prod.mk.injEq]
    refine ⟨funext fun i => ?_, rfl⟩
    rw [hcounts]
    by_cases h : c = charOf i
    · rw [if_pos h, Counters.incr, if_pos ((hcount i).2 h).2]
    · rw [if_neg h, Counters.incr, if_neg fun hi => h ((hcount i).1 ⟨hp, hi⟩)]
  · rw [if_neg hp, if_neg hp]
    rw [Prod.mk.injEq]
    refine ⟨funext fun i => ?_, rfl⟩
    rw [hcounts, if_neg fun h => hp ((hcount i).2 h).1]

theorem printableOf_append_one (stream : List UInt8) (c : UInt8) :
    printableOf (stream ++ [c]) =
      if isPrintable c then printableOf stream + 1 else printableOf stream := by
  rw [printableOf, List.countP_append, List.countP_singleton]
  split
  · rw [BitVec.ofNat_add]; rfl
  · rfl

/-! ## The session invariant -/

/-- The announced size, after it was read. -/
def Announced (size : BitVec 32) (g : Session) : Prop :=
  4 ≤ g.received.length ∧ size = BitVec.ofNat 32 (ofBig (g.received.take 4))

/-- `counted` is what `client` has of the stream, and the stream has the length `total`. -/
structure Counting (size : BitVec 32) (client : Counters) (g : Session) (total : BitVec 32)
    (counted : List UInt8) : Prop where
  announced : Announced size g
  client : client = countsOf counted
  length : total = BitVec.ofNat 32 g.stream.length

/-- The whole stream was read and counted. -/
structure Tallied (size : BitVec 32) (client : Counters) (g : Session) : Prop where
  announced : Announced size g
  client : client = countsOf g.stream
  enough : size.toNat ≤ (BitVec.ofNat 32 g.stream.length).toNat

/-- The reply to a session: the count in network order. -/
def replyOf (g : Session) : List UInt8 := bigBytes 4 (printableOf g.stream).toNat

/-- What the program point says about the session. -/
def SessionInv (s : Server) (g : Session) : Prop :=
  match s.pc with
  | .setProcessing => g = .empty
  | .readSize total mem => total < 4 ∧ mem.length = 4 ∧ g.received = mem.take total ∧ g.sent = []
  | .resetClient i => Announced s.stream_byte_size g ∧ g.stream = [] ∧ g.sent = [] ∧
      ∀ j, j.val < i → s.pcc_client j = 0
  | .readTest total n => Counting s.stream_byte_size s.pcc_client g total g.stream ∧
      n = printableOf g.stream ∧ g.sent = []
  | .readStream total n => Counting s.stream_byte_size s.pcc_client g total g.stream ∧
      n = printableOf g.stream ∧ g.sent = [] ∧ total.toNat < s.stream_byte_size.toNat
  | .updateClient total n rest counter => ∃ counted, g.stream = counted ++ rest ∧
      Counting s.stream_byte_size s.pcc_client g total counted ∧
      n + counter = printableOf counted ∧ g.sent = []
  | .convert n => Tallied s.stream_byte_size s.pcc_client g ∧ n = printableOf g.stream ∧ g.sent = []
  | .sendReply data total => Tallied s.stream_byte_size s.pcc_client g ∧ data = replyOf g ∧
      total < 4 ∧ g.sent = data.take total
  | .updateTotal _ => Tallied s.stream_byte_size s.pcc_client g ∧ g.sent = replyOf g
  | _ => True

theorem htonl_toNat (e : Endian) (x : BitVec 32) : (htonl e x).toNat = e.toNetwork 4 x.toNat := by
  rw [htonl, BitVec.toNat_ofNat]
  exact Nat.mod_eq_of_lt (e.toNetwork_lt x.isLt)

/-- The reply is the count in network order, whatever the byte order of the server. -/
theorem uint32Bytes_htonl (e : Endian) (x : BitVec 32) :
    uint32Bytes e (htonl e x) = bigBytes 4 x.toNat := by
  rw [uint32Bytes, htonl_toNat, Endian.bytes_toNetwork]

theorem ofBytes_lt (e : Endian) (bs : List UInt8) : e.ofBytes bs < 256 ^ bs.length := by
  cases e with
  | little => exact ofLittle_lt bs
  | big => simpa [Endian.ofBytes, ofBig] using ofLittle_lt bs.reverse

/-- Four bytes that came in network order, whatever the byte order of the receiver. -/
theorem htonl_ofBytes (e : Endian) {bs : List UInt8} (h : bs.length = 4) :
    htonl e (uint32OfBytes e bs) = BitVec.ofNat 32 (ofBig bs) := by
  have hlt : e.ofBytes bs < 2 ^ 32 := by simpa [h] using ofBytes_lt e bs
  rw [htonl, uint32OfBytes, BitVec.toNat_ofNat, Nat.mod_eq_of_lt hlt, ← h, Endian.toNetwork_ofBytes]

theorem session_internal {e : Endian} {s s' : Server} {g : Session} (I : SessionInv s g)
    (hs : s.internal e = some s') : SessionInv s' g := by
  unfold Server.internal at hs
  unfold SessionInv at I
  split at hs
  · cases hs
    cases s.g_server_is_running <;> trivial
  · rename_i hpc
    simp only [hpc] at I
    cases hs
    subst I
    exact ⟨by omega, by simp [uint32Bytes], rfl, rfl⟩
  · rename_i i hpc
    simp only [hpc] at I
    obtain ⟨hann, hstream, hsent, hzero⟩ := I
    split at hs
    · cases hs
      refine ⟨hann, hstream, hsent, fun j hj => ?_⟩
      by_cases hji : j.val = i
      · simp [hji]
      · simp only [hji, if_false]; exact hzero j (by omega)
    · rename_i hi
      cases hs
      rw [Nat.not_lt] at hi
      refine ⟨⟨hann, funext fun j => ?_, by simp [hstream]⟩, by simp [hstream, printableOf], hsent⟩
      rw [hzero j (Nat.lt_of_lt_of_le j.isLt hi)]
      simp [hstream, countsOf]
  · rename_i total n hpc
    simp only [hpc] at I
    obtain ⟨hc, hn, hsent⟩ := I
    split at hs
    · rename_i hlt
      cases hs; exact ⟨hc, hn, hsent, hlt⟩
    · rename_i hge
      cases hs
      refine ⟨⟨hc.announced, hc.client, ?_⟩, hn, hsent⟩
      rw [← hc.length]; exact Nat.le_of_not_lt hge
  · rename_i total n recieve_buff counter hpc
    simp only [hpc] at I
    obtain ⟨counted, hstream, hc, hn, hsent⟩ := I
    cases recieve_buff with
    | nil =>
      rw [List.append_nil] at hstream
      subst hstream
      cases hs
      exact ⟨hc, hn, hsent⟩
    | cons c rest =>
      simp only [hc.client, countChar_spec] at hs
      cases hs
      refine ⟨counted ++ [c], by simp [hstream], ⟨hc.announced, rfl, hc.length⟩, ?_, hsent⟩
      rw [printableOf_append_one, ← hn]
      split
      · rw [BitVec.add_assoc]
      · rfl
  · rename_i n hpc
    simp only [hpc] at I
    obtain ⟨hc, hn, hsent⟩ := I
    cases hs
    refine ⟨hc, ?_, by omega, by simp [hsent]⟩
    rw [uint32Bytes_htonl, hn]; rfl
  · rename_i i hpc
    simp only [hpc] at I
    obtain ⟨hc, hsent⟩ := I
    split at hs
    · cases hs; exact ⟨hc, hsent⟩
    · cases hs; trivial
  · cases hs; trivial
  · cases hs; trivial
  · cases hs; trivial
  · split at hs <;> cases hs <;> trivial
  all_goals cases hs

/-- What arrives after the size belongs to the stream. -/
theorem stream_received {g : Session} (bytes : List UInt8) (hlen : 4 ≤ g.received.length) :
    (g.after (.received bytes)).stream = g.stream ++ bytes := by
  simp only [Session.stream, Session.after]
  rw [List.drop_append_of_le_length hlen]

theorem session_received {e : Endian} {s s' : Server} {g : Session} {bytes : List UInt8}
    (I : SessionInv s g) (hs : s.received e bytes = some s') :
    SessionInv s' (g.after (.received bytes)) := by
  unfold Server.received at hs
  unfold SessionInv at I
  split at hs
  · rename_i total mem hpc
    simp only [hpc] at I
    obtain ⟨htotal, hmem, hrec, hsent⟩ := I
    split at hs
    · rename_i hb
      obtain ⟨-, hlen⟩ := hb
      have hrec' : g.received ++ bytes = (overwrite mem total bytes).take (total + bytes.length) := by
        rw [take_overwrite (by omega), hrec]
      have hmem' : (overwrite mem total bytes).length = 4 := by
        rw [overwrite_length (by omega), hmem]
      simp only at hs
      split at hs
      · rename_i hlt
        cases hs
        exact ⟨hlt, hmem', hrec', hsent⟩
      · cases hs
        have hfull : g.received ++ bytes = overwrite mem total bytes := by
          rw [hrec', List.take_of_length_le (by omega)]
        have hgot : (g.received ++ bytes).length = 4 := by rw [hfull, hmem']
        refine ⟨⟨?_, ?_⟩, ?_, hsent, fun j hj => by omega⟩
        · exact Nat.le_of_eq hgot.symm
        · simp only [Session.after]
          rw [List.take_of_length_le (by omega), hfull, htonl_ofBytes e hmem']
        · exact List.drop_eq_nil_of_le (Nat.le_of_eq hgot)
    · cases hs
  · rename_i total n hpc
    simp only [hpc] at I
    obtain ⟨hc, hn, hsent, -⟩ := I
    split at hs
    · cases hs
      have hlen := hc.announced.1
      have hstream := stream_received bytes hlen
      refine ⟨g.stream, hstream, ⟨⟨?_, ?_⟩, hc.client, ?_⟩, by simpa using hn, hsent⟩
      · simp only [Session.after, List.length_append]; omega
      · simp only [Session.after]
        rw [List.take_append_of_le_length hlen]
        exact hc.announced.2
      · rw [hstream, List.length_append, BitVec.ofNat_add, hc.length]
    · cases hs
  · cases hs

/-- A part of the reply, or the last of it. -/
theorem sent_cases {s s' : Server} {g : Session} {bytes : List UInt8} (I : SessionInv s g)
    (hs : s.sent bytes = some s') : ∃ data total, s.pc = .sendReply data total ∧
      Tallied s.stream_byte_size s.pcc_client g ∧ g.sent.length = total ∧
      total + bytes.length ≤ 4 ∧ s' = { s with
        pc := if total + bytes.length < 4 then .sendReply data (total + bytes.length)
          else .updateTotal 0 } := by
  unfold Server.sent at hs
  unfold SessionInv at I
  split at hs
  · rename_i data total hpc
    simp only [hpc] at I
    obtain ⟨hc, hdata, htotal, hsent⟩ := I
    have hdlen : data.length = 4 := by rw [hdata, replyOf, bigBytes_length]
    split at hs
    · rename_i hb
      have hle := hb.2.length_le
      rw [List.length_drop] at hle
      cases hs
      refine ⟨data, total, hpc, hc, ?_, by omega, rfl⟩
      rw [hsent, List.length_take]
      omega
    · cases hs
  · cases hs

theorem session_sent {s s' : Server} {g : Session} {bytes : List UInt8} (I : SessionInv s g)
    (hs : s.sent bytes = some s') : SessionInv s' (g.after (.sent bytes)) := by
  unfold Server.sent at hs
  unfold SessionInv at I
  split at hs
  · rename_i data total hpc
    simp only [hpc] at I
    obtain ⟨hc, hdata, htotal, hsent⟩ := I
    split at hs
    · rename_i hb
      obtain ⟨-, rest, hrest⟩ := hb
      have hsent' : g.sent ++ bytes = data.take (total + bytes.length) := by
        rw [hsent, List.take_add, ← hrest, List.take_left']
        rfl
      have hdlen : data.length = 4 := by rw [hdata, replyOf, bigBytes_length]
      have hc' : Tallied s.stream_byte_size s.pcc_client (g.after (.sent bytes)) :=
        ⟨hc.announced, hc.client, hc.enough⟩
      cases hs
      simp only [SessionInv]
      by_cases hlt : total + bytes.length < 4
      · simp only [hlt, if_true]
        exact ⟨hc', hdata, trivial, hsent'⟩
      · simp only [hlt, if_false]
        refine ⟨hc', ?_⟩
        rw [List.take_of_length_le (by omega), hdata] at hsent'
        exact hsent'
    · cases hs
  · cases hs

/-- **Every step keeps the session invariant.** -/
theorem session_step {e : Endian} {s s' : Server} {ev : ServerEvent} {g : Session}
    (I : SessionInv s g) (hs : ServerStep e s ev s') : SessionInv s' (g.after ev) := by
  cases ev with
  | internal => exact session_internal I hs
  | received bytes => exact session_received I hs
  | sent bytes => exact session_sent I hs
  | sigint =>
    cases moves_of_next hs with
    | sigint hpc =>
      unfold sigIntHandler
      split
      · exact I
      · trivial
  | accepted =>
    cases moves_of_next hs with
    | accepted hpc => rfl
  | acceptFailed =>
    cases moves_of_next hs with
    | acceptFailed hpc => trivial
  | readFailed =>
    cases moves_of_next hs with
    | readFailed size hwork => trivial
  | writeFailed =>
    cases moves_of_next hs with
    | writeFailed hwork => trivial

/-- Between two sessions. -/
def Idle (s : Server) : Prop := s.pc = .loop ∨ s.pc = .accept

theorem session_run {e : Endian} {s₀ s : Server} {h : List ServerEvent} (hidle : Idle s₀)
    (hr : Run (ServerStep e) s₀ h s) : SessionInv s (sessionOf h) := by
  refine hr.historyInvariant (P := fun h s => SessionInv s (sessionOf h)) ?_
    fun _ _ _ _ I hs => session_step I hs
  rcases hidle with hpc | hpc <;> simp [SessionInv, hpc]

end OSCourse.Pcc
