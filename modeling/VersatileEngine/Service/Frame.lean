import VersatileEngine.Bin.Codec

/-!
# VersatileEngine.Service.Frame

The frames of `tcp_bin_frame.cpp`: a flag, the length of the body in four bytes, the body.

* `encodeFrame`, `tryPopFrame` — one frame at the end of a packet, one frame at the front of a buffer.
* `receive`      — what the receive callbacks of client and server do with a chunk: append it and pop
  while there is a frame.
* `receiveAll_frames` — however a stream of frames is cut into chunks, the frames come out one by one
  and what is left in the buffer is the beginning of the next one.
-/

namespace VersatileEngine

namespace Frame

/-- `FRAME_HEADER_SIZE`. -/
def headerSize : Nat := 5

/-- A frame around a body. -/
def ofBody (flag : UInt8) (body : List UInt8) : List UInt8 :=
  let len := u32 body.length
  flag :: UInt8.ofNat len :: UInt8.ofNat (len / 2 ^ 8) :: UInt8.ofNat (len / 2 ^ 16) ::
    UInt8.ofNat (len / 2 ^ 24) :: body

def encodeFrame (flag : UInt8) (payload : Var) : List UInt8 := ofBody flag (writeVar payload [])

/-- The length that a header announces. -/
def declaredLength (b1 b2 b3 b4 : UInt8) : Nat :=
  b1.toNat + 2 ^ 8 * b2.toNat + 2 ^ 16 * b3.toNat + 2 ^ 24 * b4.toNat

/-- The buffer and the two results after a call, and what it returns. -/
structure Popped where
  ok : Bool
  buf : List UInt8
  flag : UInt8
  outVar : Var

def tryPopFrame (buf : List UInt8) (flag : UInt8) (outVar : Var) : Popped :=
  match buf with
  | b0 :: b1 :: b2 :: b3 :: b4 :: rest =>
    let len := declaredLength b1 b2 b3 b4
    if rest.length < len then ⟨false, buf, b0, outVar⟩
    else ⟨true, rest.drop len, b0, (readVar (some (rest.take len))).1⟩
  | _ => ⟨false, buf, flag, outVar⟩

/-- `while (tryPopFrame(..))`: the frames that come out, and the buffer. A frame takes at least a
byte, so there are no more rounds than bytes. -/
def popFrames : Nat → List UInt8 → UInt8 → Var → List (UInt8 × Var) × List UInt8
  | 0, buf, _, _ => ([], buf)
  | fuel + 1, buf, flag, outVar =>
    let p := tryPopFrame buf flag outVar
    if p.ok then
      let (frames, buf) := popFrames fuel p.buf p.flag p.outVar
      ((p.flag, p.outVar) :: frames, buf)
    else ([], p.buf)

/-- A chunk arrives. -/
def receive (buf chunk : List UInt8) : List (UInt8 × Var) × List UInt8 :=
  popFrames (buf ++ chunk).length (buf ++ chunk) 0 .none

/-- Chunks arrive one after another. -/
def receiveAll : List UInt8 → List (List UInt8) → List (UInt8 × Var) × List UInt8
  | buf, [] => ([], buf)
  | buf, chunk :: chunks =>
    let (frames, buf) := receive buf chunk
    let (more, buf) := receiveAll buf chunks
    (frames ++ more, buf)

/-! ## One frame -/

theorem declaredLength_ofBody {n : Nat} (h : n < 2 ^ 32) :
    declaredLength (UInt8.ofNat n) (UInt8.ofNat (n / 2 ^ 8)) (UInt8.ofNat (n / 2 ^ 16))
      (UInt8.ofNat (n / 2 ^ 24)) = n := by
  simp only [declaredLength, UInt8.toNat_ofNat']
  omega

theorem ofBody_length (flag : UInt8) (body : List UInt8) :
    (ofBody flag body).length = headerSize + body.length := by
  simp [ofBody, headerSize]
  omega

/-- What `readVar` gives for a body. -/
def payload (body : List UInt8) : Var := (readVar (some body)).1

/-- The bytes of a header, and the length that they announce. -/
theorem ofBody_header {body : List UInt8} (h : body.length < 2 ^ 32) (flag : UInt8) :
    ∃ b1 b2 b3 b4, ofBody flag body = flag :: b1 :: b2 :: b3 :: b4 :: body ∧
      declaredLength b1 b2 b3 b4 = body.length := by
  obtain ⟨n, hn⟩ : ∃ n, body.length = n := ⟨_, rfl⟩
  rw [hn] at h
  rw [ofBody, hn, u32_of_lt h]
  exact ⟨_, _, _, _, rfl, declaredLength_ofBody h⟩

/-- **A pop takes the header and the declared length**, whatever the body is. -/
theorem tryPopFrame_ofBody {body : List UInt8} (h : body.length < 2 ^ 32) (flag f : UInt8)
    (more : List UInt8) (v : Var) :
    tryPopFrame (ofBody flag body ++ more) f v = ⟨true, more, flag, payload body⟩ := by
  obtain ⟨b1, b2, b3, b4, hbytes, hlen⟩ := ofBody_header h flag
  simp only [hbytes, List.cons_append, tryPopFrame, hlen]
  rw [if_neg (by simp), List.drop_left, List.take_left, payload]

/-- Nothing is popped before the frame is complete. -/
theorem tryPopFrame_short {body buf later : List UInt8} (h : body.length < 2 ^ 32) {flag : UInt8}
    (hbuf : buf ++ later = ofBody flag body) (hlen : buf.length < (ofBody flag body).length)
    (f : UInt8) (v : Var) : (tryPopFrame buf f v).ok = false ∧ (tryPopFrame buf f v).buf = buf := by
  obtain ⟨b1, b2, b3, b4, hbytes, hdecl⟩ := ofBody_header h flag
  rw [hbytes] at hbuf hlen
  rw [tryPopFrame.eq_def]
  split
  · simp only [List.cons_append, List.cons.injEq] at hbuf
    obtain ⟨rfl, rfl, rfl, rfl, rfl, -⟩ := hbuf
    simp only [List.length_cons, Nat.add_lt_add_iff_right] at hlen
    simp only [hdecl, if_pos hlen, and_self]
  · exact ⟨rfl, rfl⟩

/-! ## A stream of frames -/

/-- The bytes of frames given by flag and body. -/
def stream (frames : List (UInt8 × List UInt8)) : List UInt8 := frames.flatMap fun p => ofBody p.1 p.2

/-- What comes out for a frame. -/
def delivered (p : UInt8 × List UInt8) : UInt8 × Var := (p.1, payload p.2)

/-- The bodies are below the limit of the header. -/
def Sized (frames : List (UInt8 × List UInt8)) : Prop := ∀ p ∈ frames, p.2.length < 2 ^ 32

/-- The buffer holds the beginning of what is still to come, and no whole frame of it. -/
def Unfinished (buf later : List UInt8) (rest : List (UInt8 × List UInt8)) : Prop :=
  buf ++ later = stream rest ∧ ∀ p ∈ rest.head?, buf.length < (ofBody p.1 p.2).length

theorem tryPopFrame_unfinished {buf later : List UInt8} {rest : List (UInt8 × List UInt8)}
    (hs : Sized rest) (h : Unfinished buf later rest) (f : UInt8) (v : Var) :
    (tryPopFrame buf f v).ok = false ∧ (tryPopFrame buf f v).buf = buf := by
  obtain ⟨hbuf, hshort⟩ := h
  cases rest with
  | nil =>
    obtain ⟨rfl, -⟩ := List.append_eq_nil_iff.mp hbuf
    exact ⟨rfl, rfl⟩
  | cons p rest =>
    have hlt := hshort p rfl
    rw [stream, List.flatMap_cons] at hbuf
    obtain ⟨later', hsplit⟩ : ∃ later', buf ++ later' = ofBody p.1 p.2 := by
      refine ⟨(ofBody p.1 p.2).drop buf.length, ?_⟩
      have htake : (buf ++ later).take buf.length = (ofBody p.1 p.2).take buf.length := by
        rw [hbuf, List.take_append_of_le_length (Nat.le_of_lt hlt)]
      rw [List.take_left] at htake
      conv_lhs => rw [htake]
      rw [List.length_take, Nat.min_eq_left (Nat.le_of_lt hlt), List.take_append_drop]
    exact tryPopFrame_short (hs p (by simp)) hsplit hlt f v

/-- The loop pops every whole frame of the stream and stops. -/
theorem popFrames_stream {later : List UInt8} (rest : List (UInt8 × List UInt8)) (hs : Sized rest) :
    ∀ (fuel : Nat) (buf : List UInt8) (f : UInt8) (v : Var), buf.length ≤ fuel →
      buf ++ later = stream rest → ∃ done left, rest = done ++ left ∧
        (popFrames fuel buf f v).1 = done.map delivered ∧
        Unfinished (popFrames fuel buf f v).2 later left := by
  induction rest with
  | nil =>
    intro fuel buf f v _ hbuf
    obtain ⟨rfl, -⟩ := List.append_eq_nil_iff.mp hbuf
    refine ⟨[], [], rfl, ?_⟩
    cases fuel with
    | zero => exact ⟨rfl, hbuf, by simp⟩
    | succ fuel => exact ⟨rfl, hbuf, by simp⟩
  | cons p rest ih =>
    intro fuel buf f v hfuel hbuf
    have hs' : Sized rest := fun q hq => hs q (by simp [hq])
    by_cases hlt : buf.length < (ofBody p.1 p.2).length
    · have hun : Unfinished buf later (p :: rest) := ⟨hbuf, fun q hq => by
        obtain rfl : p = q := by simpa using hq
        exact hlt⟩
      obtain ⟨hok, hsame⟩ := tryPopFrame_unfinished hs hun f v
      refine ⟨[], p :: rest, rfl, ?_⟩
      cases fuel with
      | zero => exact ⟨rfl, hun⟩
      | succ fuel =>
        simp only [popFrames, hok, Bool.false_eq_true, if_false, hsame]
        exact ⟨rfl, hun⟩
    · rw [stream, List.flatMap_cons] at hbuf
      obtain ⟨buf', rfl⟩ : ∃ buf', buf = ofBody p.1 p.2 ++ buf' := by
        refine ⟨buf.drop (ofBody p.1 p.2).length, ?_⟩
        have htake : (buf ++ later).take (ofBody p.1 p.2).length = ofBody p.1 p.2 := by
          rw [hbuf, List.take_left]
        rw [List.take_append_of_le_length (by omega)] at htake
        conv_lhs => rw [← List.take_append_drop (ofBody p.1 p.2).length buf, htake]
      rw [List.append_assoc] at hbuf
      have hrest : buf' ++ later = stream rest := List.append_cancel_left hbuf
      have hpop := tryPopFrame_ofBody (hs p (by simp)) p.1 f buf' v
      rw [List.length_append, ofBody_length, headerSize] at hfuel
      cases fuel with
      | zero => omega
      | succ fuel =>
        obtain ⟨done, left, hsplit, hout, hun⟩ :=
          ih hs' fuel buf' p.1 (payload p.2) (by omega) hrest
        refine ⟨p :: done, left, by rw [hsplit, List.cons_append], ?_⟩
        simp only [popFrames, hpop, if_true, hout, List.map_cons]
        exact ⟨rfl, hun⟩

/-- **A stream cut into chunks**: what came out so far is a prefix of the frames, and the buffer is the
unfinished rest of the bytes that arrived. -/
theorem receiveAll_stream (chunks : List (List UInt8)) :
    ∀ (buf later : List UInt8) (rest : List (UInt8 × List UInt8)), Sized rest →
      buf ++ (chunks.flatten ++ later) = stream rest →
      (∀ p ∈ rest.head?, buf.length < (ofBody p.1 p.2).length) →
      ∃ done left, rest = done ++ left ∧ (receiveAll buf chunks).1 = done.map delivered ∧
        Unfinished (receiveAll buf chunks).2 later left := by
  induction chunks with
  | nil =>
    intro buf later rest _ hbuf hshort
    exact ⟨[], rest, rfl, rfl, hbuf, hshort⟩
  | cons chunk chunks ih =>
    intro buf later rest hs hbuf _
    rw [List.flatten_cons, List.append_assoc, ← List.append_assoc] at hbuf
    obtain ⟨done, left, rfl, hout, hun⟩ := popFrames_stream rest hs (buf ++ chunk).length
      (buf ++ chunk) 0 .none (Nat.le_refl _) hbuf
    obtain ⟨done', left', rfl, hout', hun'⟩ := ih _ later left
      (fun q hq => hs q (List.mem_append_right done hq)) hun.1 hun.2
    refine ⟨done ++ done', left', by rw [List.append_assoc], ?_⟩
    simp only [receiveAll, receive]
    exact ⟨by rw [hout, hout', List.map_append], hun'⟩

theorem declaredLength_bytes {b1 b2 b3 b4 : UInt8} {n : Nat} (h : n = declaredLength b1 b2 b3 b4) :
    n < 2 ^ 32 ∧ UInt8.ofNat n = b1 ∧ UInt8.ofNat (n / 2 ^ 8) = b2 ∧ UInt8.ofNat (n / 2 ^ 16) = b3 ∧
      UInt8.ofNat (n / 2 ^ 24) = b4 := by
  have h1 := b1.toNat_lt
  have h2 := b2.toNat_lt
  have h3 := b3.toNat_lt
  have h4 := b4.toNat_lt
  have hbyte : ∀ (b : UInt8) {k : Nat}, k % 256 = b.toNat → UInt8.ofNat k = b := fun b k hk =>
    UInt8.toNat_inj.mp (by rw [UInt8.toNat_ofNat', hk])
  rw [declaredLength] at h
  exact ⟨by omega, hbyte b1 (by omega), hbyte b2 (by omega), hbyte b3 (by omega), hbyte b4 (by omega)⟩

theorem ofBody_declaredLength {b1 b2 b3 b4 : UInt8} {body : List UInt8}
    (h : body.length = declaredLength b1 b2 b3 b4) (flag : UInt8) :
    body.length < 2 ^ 32 ∧ ofBody flag body = flag :: b1 :: b2 :: b3 :: b4 :: body := by
  obtain ⟨n, hn⟩ : ∃ n, body.length = n := ⟨_, rfl⟩
  obtain ⟨hsize, h1, h2, h3, h4⟩ := declaredLength_bytes (hn.symm.trans h)
  rw [ofBody, hn, u32_of_lt hsize, h1, h2, h3, h4]
  exact ⟨hsize, rfl⟩

theorem tryPopFrame_header (b0 b1 b2 b3 b4 : UInt8) (rest : List UInt8) (f : UInt8) (v : Var) :
    tryPopFrame (b0 :: b1 :: b2 :: b3 :: b4 :: rest) f v =
      if rest.length < declaredLength b1 b2 b3 b4 then
        ⟨false, b0 :: b1 :: b2 :: b3 :: b4 :: rest, b0, v⟩
      else ⟨true, rest.drop (declaredLength b1 b2 b3 b4), b0,
        payload (rest.take (declaredLength b1 b2 b3 b4))⟩ := by
  simp only [tryPopFrame, payload]

/-- Whatever the buffer holds, a pop takes one frame from its front. -/
theorem tryPopFrame_exact {buf : List UInt8} {f : UInt8} {v : Var}
    (h : (tryPopFrame buf f v).ok = true) : ∃ flag body, body.length < 2 ^ 32 ∧
      buf = ofBody flag body ++ (tryPopFrame buf f v).buf ∧
      tryPopFrame buf f v = ⟨true, (tryPopFrame buf f v).buf, flag, payload body⟩ := by
  match buf, h with
  | b0 :: b1 :: b2 :: b3 :: b4 :: rest, h =>
    rw [tryPopFrame_header] at h ⊢
    obtain ⟨len, hdecl⟩ : ∃ len, len = declaredLength b1 b2 b3 b4 := ⟨_, rfl⟩
    rw [← hdecl] at h ⊢
    by_cases hlt : rest.length < len
    · rw [if_pos hlt] at h
      cases h
    · have hlen : (rest.take len).length = len := by
        rw [List.length_take]
        omega
      obtain ⟨hsize, hbytes⟩ := ofBody_declaredLength (hlen.trans hdecl) b0
      rw [if_neg hlt]
      exact ⟨b0, _, hsize, by rw [hbytes]; simp, rfl⟩

/-- **Frame reassembly.** Of frames that were encoded one after another, cut into chunks anywhere, those
whose bytes have all arrived come out, in order and once, and the buffer is the unfinished rest; when all
has arrived nothing is left. A pop takes one frame from the front of any buffer, whatever its body is. -/
theorem receiveAll_frames (frames : List (UInt8 × Var))
    (h : ∀ p ∈ frames, (writeVar p.2 []).length < 2 ^ 32) :
    (∀ (chunks : List (List UInt8)) (later : List UInt8),
      chunks.flatten ++ later = frames.flatMap (fun p => encodeFrame p.1 p.2) →
      ∃ done left, frames = done ++ left ∧
        (receiveAll [] chunks).1 = done.map (fun p => (p.1, (readVar (some (writeVar p.2 []))).1)) ∧
        (receiveAll [] chunks).2 ++ later = left.flatMap (fun p => encodeFrame p.1 p.2) ∧
        (∀ p ∈ left.head?, (receiveAll [] chunks).2.length < (encodeFrame p.1 p.2).length) ∧
        (later = [] → left = [] ∧ (receiveAll [] chunks).2 = [])) ∧
    ∀ (buf : List UInt8) (f : UInt8) (v : Var), (tryPopFrame buf f v).ok = true →
      ∃ flag body, body.length < 2 ^ 32 ∧ buf = ofBody flag body ++ (tryPopFrame buf f v).buf ∧
        tryPopFrame buf f v = ⟨true, (tryPopFrame buf f v).buf, flag, (readVar (some body)).1⟩ := by
  refine ⟨fun chunks later hbytes => ?_, fun buf f v => tryPopFrame_exact⟩
  obtain ⟨raw, hraw⟩ : ∃ raw : List (UInt8 × Var) → List (UInt8 × List UInt8),
      raw = List.map fun p => (p.1, writeVar p.2 []) := ⟨_, rfl⟩
  have hstream : ∀ l, stream (raw l) = l.flatMap fun p => encodeFrame p.1 p.2 := fun l => by
    rw [hraw, stream, List.flatMap_map]
    rfl
  have hs : Sized (raw frames) := by
    rw [hraw]
    intro p hp
    obtain ⟨q, hq, rfl⟩ := List.mem_map.mp hp
    exact h q hq
  obtain ⟨done, left, hsplit, hout, hun⟩ :=
    receiveAll_stream chunks [] later (raw frames) hs (by rw [hstream]; exact hbytes) (by
      simp [ofBody_length, headerSize])
  rw [hraw] at hsplit
  obtain ⟨done, left, rfl, rfl, rfl⟩ := List.map_eq_append_iff.mp hsplit
  rw [← hraw] at hun
  obtain ⟨hbuf, hshort⟩ := hun
  rw [hstream] at hbuf
  have hshort' : ∀ p ∈ left.head?, (receiveAll [] chunks).2.length < (encodeFrame p.1 p.2).length := by
    cases left with
    | nil => simp
    | cons p left =>
      intro q hq
      obtain rfl : p = q := by simpa using hq
      exact hshort (p.1, writeVar p.2 []) (by simp [hraw])
  refine ⟨done, left, rfl, by rw [hout, List.map_map]; rfl, hbuf, hshort', ?_⟩
  rintro rfl
  rw [List.append_nil] at hbuf
  cases left with
  | nil => exact ⟨rfl, hbuf⟩
  | cons p left =>
    have hlt := hshort' p rfl
    rw [hbuf, List.flatMap_cons, List.length_append] at hlt
    omega

/-- Two frames in three chunks: the first is cut inside its header, the second is not complete. -/
theorem receiveAll_frames_sample :
    let frames : List (UInt8 × Var) := [(0x40, .int 5), (0x80, .none)]
    let chunks : List (List UInt8) := [[0x40, 1, 0], [], [0, 0, 5, 0x80, 1]]
    ∃ done left, frames = done ++ left ∧
      (receiveAll [] chunks).1 = done.map (fun p => (p.1, (readVar (some (writeVar p.2 []))).1)) ∧
      (receiveAll [] chunks).2 ++ [0, 0, 0, 0xc0] = left.flatMap (fun p => encodeFrame p.1 p.2) ∧
      (∀ p ∈ left.head?, (receiveAll [] chunks).2.length < (encodeFrame p.1 p.2).length) ∧
      (([0, 0, 0, 0xc0] : List UInt8) = [] → left = [] ∧ (receiveAll [] chunks).2 = []) := by
  refine (receiveAll_frames [(0x40, .int 5), (0x80, .none)] ?_).1 [[0x40, 1, 0], [], [0, 0, 5, 0x80, 1]]
    [0, 0, 0, 0xc0] (by decide)
  simp only [List.forall_mem_cons]
  exact ⟨by decide, by decide, by simp⟩

end Frame

end VersatileEngine
