import OSCourse.Lib.Halting
import OSCourse.Pcc.Session

/-!
# The server reads the stream

`reset_pcc_client` and `read_stream_from_client` on every stream, cut in every way into the pieces
that the calls of `read` return.

* `IntakeStep` — a step of the server in these functions, with the piece that it reads.
* `StopsAt` — after the piece `k`, for the first time, a `uint32_t` that counts the bytes has
  reached the announced size.
* `IntakeInv` — the session is described as in `SessionInv`, by the pieces read so far.
* `counts_announced_iff` — the counts are those of the announced bytes exactly when the bytes
  that were read beyond them add nothing to any counter.
-/

set_option autoImplicit false

namespace OSCourse.Pcc

open Bytes Transition

/-- A server, and the pieces in which the rest of the stream arrives. -/
structure Intake where
  server : Server
  chunks : List (List UInt8)

/-- The points of `reset_pcc_client` and `read_stream_from_client`. -/
def ServerPc.streaming : ServerPc → Bool
  | .resetClient _ | .readTest .. | .readStream .. | .updateClient .. => true
  | _ => false

inductive IntakeStep (e : Endian) (t : Intake) : ServerEvent → Intake → Prop
  | internal {s : Server} : t.server.pc.streaming = true → t.server.next e .internal = some s →
      IntakeStep e t .internal { t with server := s }
  | received {s : Server} {chunk : List UInt8} {rest : List (List UInt8)} :
      t.server.pc.streaming = true → t.chunks = chunk :: rest →
      t.server.next e (.received chunk) = some s → IntakeStep e t (.received chunk) ⟨s, rest⟩
  | ended {s : Server} : t.server.pc.streaming = true → t.chunks = [] →
      t.server.next e .readFailed = some s → IntakeStep e t .readFailed { t with server := s }

/-- After `read_stream_size_from_client`, whatever the tables hold. -/
def Intake.start (s : Server) (stream_byte_size : BitVec 32) (chunks : List (List UInt8)) : Intake :=
  ⟨{ s with pc := .resetClient 0, stream_byte_size := stream_byte_size }, chunks⟩

/-- The function returns without an error, and has counted the announced bytes. -/
def CountsAnnounced (e : Endian) (s : Server) (size : BitVec 32) (chunks : List (List UInt8)) :
    Prop :=
  Halts (IntakeStep e) (Intake.start s size chunks) ∧
  ∀ h t, Run (IntakeStep e) (Intake.start s size chunks) h t → Final (IntakeStep e) t →
    ∃ n, t.server.pc = .convert n ∧
      t.server.pcc_client = countsOf (chunks.flatten.take size.toNat) ∧
      n = printableOf (chunks.flatten.take size.toNat)

/-- A `uint32_t` that counts bytes reaches `size` with the piece `k`. -/
structure StopsAt (size : BitVec 32) (chunks : List (List UInt8)) (k : Nat) : Prop where
  enough : size.toNat ≤ (chunks.take k).flatten.length % 2 ^ 32
  first : ∀ j < k, (chunks.take j).flatten.length % 2 ^ 32 < size.toNat

/-- No counter changes when these bytes are counted. -/
def Silent (bytes : List UInt8) : Prop := (∀ i, countsOf bytes i = 0) ∧ printableOf bytes = 0

/-! ## What was read -/

/-- `k` pieces were read, and `g` is the session with them. -/
structure IntakeInv (size : BitVec 32) (chunks : List (List UInt8)) (k : Nat) (g : Session)
    (t : Intake) : Prop where
  session : SessionInv t.server g
  announced : t.server.stream_byte_size = size
  rest : t.chunks = chunks.drop k
  stream : g.stream = (chunks.take k).flatten
  short : ∀ j < k, (chunks.take j).flatten.length % 2 ^ 32 < size.toNat
  point : t.server.pc.streaming = true ∨ (∃ n, t.server.pc = .convert n) ∨
    t.server.pc = .closeFailed ∧ chunks.length ≤ k ∧
      (chunks.take k).flatten.length % 2 ^ 32 < size.toNat

section

variable {e : Endian} {s : Server} {size : BitVec 32} {chunks : List (List UInt8)} {k : Nat}
  {g : Session} {t t' : Intake} {ev : ServerEvent}

theorem intakeInv_start :
    IntakeInv size chunks 0 ⟨bigBytes 4 size.toNat, []⟩ (Intake.start s size chunks) where
  session := by
    have hlen : (bigBytes 4 size.toNat).length = 4 := bigBytes_length ..
    refine ⟨⟨Nat.le_of_eq hlen.symm, ?_⟩, ?_, rfl, fun j hj => absurd hj (Nat.not_lt_zero _)⟩
    · have hlt := size.isLt
      apply BitVec.eq_of_toNat_eq
      rw [BitVec.toNat_ofNat, List.take_of_length_le (Nat.le_of_eq hlen), ofBig_bigBytes]
      simp only [Intake.start]
      omega
    · exact List.drop_eq_nil_of_le (Nat.le_of_eq hlen)
  announced := rfl
  rest := rfl
  stream := List.drop_eq_nil_of_le (Nat.le_of_eq (bigBytes_length ..))
  short := fun j hj => absurd hj (Nat.not_lt_zero j)
  point := .inl rfl

/-- A statement of these functions stays in them or returns. -/
theorem streaming_internal {s' : Server} (hpc : s.pc.streaming = true)
    (hs : s.next e .internal = some s') : s'.stream_byte_size = s.stream_byte_size ∧
      (s'.pc.streaming = true ∨ ∃ n, s'.pc = .convert n) := by
  simp only [Server.next, Server.internal] at hs
  split at hs
  · rename_i h; rw [h] at hpc; cases hpc
  · rename_i h; rw [h] at hpc; cases hpc
  · split at hs <;> cases hs <;> exact ⟨rfl, .inl rfl⟩
  · split at hs <;> cases hs
    · exact ⟨rfl, .inl rfl⟩
    · exact ⟨rfl, .inr ⟨_, rfl⟩⟩
  · rename_i recieve_buff _ _
    cases recieve_buff <;> cases hs <;> exact ⟨rfl, .inl rfl⟩
  all_goals first | (cases hs; done) | (rename_i h; rw [h] at hpc; cases hpc)

theorem streaming_received {s' : Server} {chunk : List UInt8} (hpc : s.pc.streaming = true)
    (hs : s.next e (.received chunk) = some s') : ∃ total n, s.pc = .readStream total n ∧
      s' = { s with pc := .updateClient (total + BitVec.ofNat 32 chunk.length) n chunk 0 } := by
  simp only [Server.next, Server.received] at hs
  split at hs
  · rename_i h; rw [h] at hpc; cases hpc
  · rename_i total n h
    split at hs <;> cases hs
    exact ⟨total, n, h, rfl⟩
  · cases hs

theorem streaming_readFailed {s' : Server} (hpc : s.pc.streaming = true)
    (hs : s.next e .readFailed = some s') : ∃ total n, s.pc = .readStream total n ∧
      s' = { s with pc := .closeFailed } := by
  simp only [Server.next, Server.readFailed] at hs
  split at hs
  · rename_i h; rw [h] at hpc; cases hpc
  · rename_i total n h
    cases hs
    exact ⟨total, n, h, rfl⟩
  · cases hs

/-- A server that waits for a piece has not counted as many bytes as were announced. -/
theorem IntakeInv.waiting (I : IntakeInv size chunks k g t) {total n : BitVec 32}
    (hpc : t.server.pc = .readStream total n) :
    4 ≤ g.received.length ∧ (chunks.take k).flatten.length % 2 ^ 32 < size.toNat := by
  have S := I.session
  simp only [SessionInv, hpc] at S
  obtain ⟨hc, -, -, hlt⟩ := S
  refine ⟨hc.announced.1, ?_⟩
  rw [hc.length, BitVec.toNat_ofNat, I.stream, I.announced] at hlt
  exact hlt

theorem intakeInv_step (I : IntakeInv size chunks k g t) (hs : IntakeStep e t ev t') :
    ∃ k' g', IntakeInv size chunks k' g' t' := by
  cases hs with
  | internal hpc hs =>
    obtain ⟨hsize, hpc'⟩ := streaming_internal hpc hs
    exact ⟨k, g, { I with
      session := session_internal I.session hs
      announced := hsize.trans I.announced
      point := hpc'.imp_right .inl }⟩
  | @received s chunk rest hpc hchunks hs =>
    obtain ⟨total, n, hread, rfl⟩ := streaming_received hpc hs
    obtain ⟨hlen, hlt⟩ := I.waiting hread
    have hdrop : chunks.drop k = chunk :: rest := I.rest.symm.trans hchunks
    have hk : chunks[k]? = some chunk := by
      rw [← List.head?_drop, hdrop]; rfl
    refine ⟨k + 1, g.after (.received chunk), session_received I.session hs, I.announced, ?_, ?_, ?_,
      .inl rfl⟩
    · rw [← List.tail_drop, hdrop]; rfl
    · rw [stream_received chunk hlen, I.stream, List.take_add_one, hk]
      simp
    · intro j hj
      rcases Nat.lt_succ_iff_lt_or_eq.1 hj with hj | rfl
      · exact I.short j hj
      · exact hlt
  | ended hpc hnil hs =>
    obtain ⟨total, n, hread, rfl⟩ := streaming_readFailed hpc hs
    have hle : chunks.length ≤ k := by
      rw [← List.drop_eq_nil_iff, ← I.rest, hnil]
    exact ⟨k, g, { I with
      session := trivial
      point := .inr (.inr ⟨rfl, hle, (I.waiting hread).2⟩) }⟩

theorem intake_run {h : List ServerEvent}
    (hr : Run (IntakeStep e) (Intake.start s size chunks) h t) :
    ∃ k g, IntakeInv size chunks k g t := by
  refine hr.invariant (P := fun t => ∃ k g, IntakeInv size chunks k g t)
    ⟨0, _, intakeInv_start⟩ fun t a t' hI hs => ?_
  obtain ⟨k, g, I⟩ := hI
  exact intakeInv_step I hs

/-! ## The function ends -/

/-- A bound on the steps that are left. -/
def Intake.rank (t : Intake) : Nat :=
  (t.chunks.map fun chunk => chunk.length + 3).sum +
    match t.server.pc with
    | .resetClient i => 3 + (PRINABLE_CHARS_AMOUNT - i)
    | .readTest .. => 2
    | .readStream .. => 1
    | .updateClient _ _ recieve_buff _ => recieve_buff.length + 3
    | _ => 0

theorem intake_rank_step (hs : IntakeStep e t ev t') : t'.rank < t.rank := by
  cases hs with
  | internal hpc hs =>
    refine Nat.add_lt_add_left ?_ _
    simp only [Server.next, Server.internal] at hs
    split at hs
    · rename_i h; rw [h] at hpc; cases hpc
    · rename_i h; rw [h] at hpc; cases hpc
    · rename_i h
      rw [h]
      split at hs <;> cases hs
      · simp only; omega
      · simp only; omega
    · rename_i h
      rw [h]
      split at hs <;> cases hs
      · simp only; omega
      · simp only; omega
    · rename_i recieve_buff _ h
      rw [h]
      cases recieve_buff <;> cases hs
      · simp only [List.length_nil]; omega
      · simp only [List.length_cons]; omega
    all_goals first | (cases hs; done) | (rename_i h; rw [h] at hpc; cases hpc)
  | received hpc hchunks hs =>
    obtain ⟨total, n, hread, rfl⟩ := streaming_received hpc hs
    simp only [Intake.rank, hchunks, hread, List.map_cons, List.sum_cons]
    omega
  | ended hpc hnil hs =>
    obtain ⟨total, n, hread, rfl⟩ := streaming_readFailed hpc hs
    refine Nat.add_lt_add_left ?_ _
    simp only [hread]
    omega

theorem intake_halts : Halts (IntakeStep e) t :=
  Halts.of_rank (P := fun _ => True) Intake.rank
    (fun _ _ _ _ hs => ⟨trivial, intake_rank_step hs⟩) trivial

/-- A server in these functions can go on, whatever piece comes next. -/
theorem not_streaming_of_final (hpieces : ∀ chunk ∈ chunks, chunk ≠ [] ∧ chunk.length ≤ BUFFER_SZIE)
    (I : IntakeInv size chunks k g t) (hfin : Final (IntakeStep e) t) :
    t.server.pc.streaming = false := by
  by_contra hpc
  rw [Bool.not_eq_false] at hpc
  have hgo : ∀ s', t.server.next e .internal ≠ some s' := fun s' hs => hfin _ _ (.internal hpc hs)
  cases hp : t.server.pc with
  | resetClient i =>
    by_cases hi : i < PRINABLE_CHARS_AMOUNT
    · exact hgo _ (by simp only [Server.next, Server.internal, hp, if_pos hi]; rfl)
    · exact hgo _ (by simp only [Server.next, Server.internal, hp, if_neg hi]; rfl)
  | readTest total n =>
    by_cases hlt : total.toNat < t.server.stream_byte_size.toNat
    · exact hgo _ (by simp only [Server.next, Server.internal, hp, if_pos hlt]; rfl)
    · exact hgo _ (by simp only [Server.next, Server.internal, hp, if_neg hlt]; rfl)
  | updateClient total n recieve_buff counter =>
    cases recieve_buff with
    | nil => exact hgo _ (by simp only [Server.next, Server.internal, hp]; rfl)
    | cons c rest => exact hgo _ (by simp only [Server.next, Server.internal, hp]; rfl)
  | readStream total n =>
    cases hc : t.chunks with
    | nil =>
      exact hfin _ _ (.ended hpc hc (by simp only [Server.next, Server.readFailed, hp]; rfl))
    | cons chunk rest =>
      have hmem : chunk ∈ chunks := by
        apply List.mem_of_mem_drop (i := k)
        rw [← I.rest, hc]
        exact List.mem_cons_self ..
      have hs := hpieces chunk hmem
      exact hfin _ _ (.received hpc hc
        (by simp only [Server.next, Server.received, hp, if_pos hs]; rfl))
  | _ => rw [hp] at hpc; cases hpc

/-! ## The result -/

theorem StopsAt.unique {k' : Nat} (h : StopsAt size chunks k) (h' : StopsAt size chunks k') :
    k = k' := by
  rcases Nat.lt_trichotomy k k' with hlt | heq | hlt
  · exact absurd (h'.first k hlt) (Nat.not_lt.2 h.enough)
  · exact heq
  · exact absurd (h.first k' hlt) (Nat.not_lt.2 h'.enough)

/-- The pieces read are the announced bytes and those beyond. -/
theorem StopsAt.split (h : StopsAt size chunks k) : (chunks.take k).flatten =
    chunks.flatten.take size.toNat ++ (chunks.take k).flatten.drop size.toNat := by
  have hle : size.toNat ≤ (chunks.take k).flatten.length := h.enough.trans (Nat.mod_le _ _)
  have hall : chunks.flatten = (chunks.take k).flatten ++ (chunks.drop k).flatten := by
    rw [← List.flatten_append, List.take_append_drop]
  rw [hall, List.take_append_of_le_length hle, List.take_append_drop]

/-- Counting more bytes than announced is right when they are silent. -/
theorem counts_split_iff (a b : List UInt8) :
    countsOf (a ++ b) = countsOf a ∧ printableOf (a ++ b) = printableOf a ↔ Silent b := by
  rw [printableOf_append, BitVec.add_right_eq_self, Silent]
  refine and_congr_left fun _ => ?_
  constructor
  · intro h i
    have hi := congrFun h i
    rwa [countsOf_append, BitVec.add_right_eq_self] at hi
  · intro h
    funext i
    rw [countsOf_append, h]
    exact BitVec.add_zero _

/-- Where a server is that has left the function. -/
theorem IntakeInv.left (I : IntakeInv size chunks k g t) (hpc : t.server.pc.streaming = false) :
    (∃ n, t.server.pc = .convert n ∧ StopsAt size chunks k ∧
      t.server.pcc_client = countsOf (chunks.take k).flatten ∧
      n = printableOf (chunks.take k).flatten) ∨
    t.server.pc = .closeFailed ∧ ∀ j, ¬StopsAt size chunks j := by
  rcases I.point with hstream | ⟨n, hn⟩ | ⟨hfail, hle, hlt⟩
  · rw [hpc] at hstream; cases hstream
  · have S := I.session
    simp only [SessionInv, hn] at S
    obtain ⟨T, hcount, -⟩ := S
    have henough := T.enough
    rw [I.announced, BitVec.toNat_ofNat, I.stream] at henough
    refine .inl ⟨n, hn, ⟨henough, I.short⟩, ?_, ?_⟩
    · rw [T.client, I.stream]
    · rw [hcount, I.stream]
  · refine .inr ⟨hfail, fun j hstop => ?_⟩
    rcases Nat.lt_or_ge j k with hj | hj
    · exact absurd (I.short j hj) (Nat.not_lt.2 hstop.enough)
    · have henough := hstop.enough
      rw [List.take_of_length_le (hle.trans hj)] at henough
      rw [List.take_of_length_le hle] at hlt
      omega

/-- A server that has counted the announced bytes read nothing beyond them that counts. -/
theorem silent_of_countsAnnounced (hcount : CountsAnnounced e s size chunks) :
    ∃ k, StopsAt size chunks k ∧ Silent ((chunks.take k).flatten.drop size.toNat) := by
  obtain ⟨hhalts, hall⟩ := hcount
  obtain ⟨h, t, hr, hfin⟩ := hhalts.exists_final
  obtain ⟨n, hn, hclient, hcount⟩ := hall h t hr hfin
  obtain ⟨k, g, I⟩ := intake_run hr
  rcases I.left (by rw [hn]; rfl) with ⟨n', hn', hstop, hclient', hcount'⟩ | ⟨hfail, -⟩
  · cases hn.symm.trans hn'
    refine ⟨k, hstop, (counts_split_iff (chunks.flatten.take size.toNat) _).1 ?_⟩
    rw [← hstop.split]
    exact ⟨hclient'.symm.trans hclient, hcount'.symm.trans hcount⟩
  · rw [hn] at hfail; cases hfail

theorem countsAnnounced_of_silent
    (hpieces : ∀ chunk ∈ chunks, chunk ≠ [] ∧ chunk.length ≤ BUFFER_SZIE)
    (hstop : StopsAt size chunks k) (hsilent : Silent ((chunks.take k).flatten.drop size.toNat)) :
    CountsAnnounced e s size chunks := by
  refine ⟨intake_halts, fun h t hr hfin => ?_⟩
  obtain ⟨k', g, I⟩ := intake_run hr
  rcases I.left (not_streaming_of_final hpieces I hfin) with
    ⟨n, hn, hstop', hclient, hcount⟩ | ⟨-, hnone⟩
  · cases hstop.unique hstop'
    have hsplit := (counts_split_iff (chunks.flatten.take size.toNat) _).2 hsilent
    rw [← hstop.split] at hsplit
    exact ⟨n, hn, hclient.trans hsplit.1, hcount.trans hsplit.2⟩
  · exact absurd hstop (hnone k)

end

/-- **The server counts the announced bytes exactly when what it reads beyond them is silent**:
the counter of bytes reaches the announced size at some piece, and neither a table entry nor the
returned counter sees the bytes of the pieces read that lie beyond that size. -/
theorem counts_announced_iff (e : Endian) (s : Server) (size : BitVec 32)
    {chunks : List (List UInt8)} (hpieces : ∀ chunk ∈ chunks, chunk ≠ [] ∧ chunk.length ≤ BUFFER_SZIE) :
    CountsAnnounced e s size chunks ↔
      ∃ k, StopsAt size chunks k ∧ Silent ((chunks.take k).flatten.drop size.toNat) := by
  constructor
  · exact silent_of_countsAnnounced
  · rintro ⟨k, hstop, hsilent⟩
    exact countsAnnounced_of_silent hpieces hstop hsilent

theorem stopsAt_one (bytes : List UInt8) (hlen : bytes.length = 1 ∨ bytes.length = 2)
    (rest : List (List UInt8)) : StopsAt 1 (bytes :: rest) 1 where
  enough := by
    simp only [List.take_succ_cons, List.take_zero, List.flatten_cons, List.flatten_nil,
      List.append_nil]
    have hone : (1 : BitVec 32).toNat = 1 := rfl
    omega
  first := by
    intro j hj
    obtain rfl : j = 0 := by omega
    exact Nat.zero_lt_one

/-- The announced byte arrives in a piece of its own. -/
theorem counts_announced_alone :
    CountsAnnounced .little Server.init 1 [[97], [98]] :=
  (counts_announced_iff .little Server.init 1 (by decide)).2
    ⟨1, stopsAt_one [97] (.inl rfl) _, fun _ => rfl, rfl⟩

/-- One byte was announced, and two arrive together. -/
theorem surplus_byte_counted : ¬CountsAnnounced .little Server.init 1 [[97, 98]] := by
  intro hcount
  obtain ⟨k, hstop, hsilent⟩ := silent_of_countsAnnounced hcount
  cases hstop.unique (stopsAt_one [97, 98] (.inr rfl) [])
  have hprintable := hsilent.2
  revert hprintable
  decide

end OSCourse.Pcc
