import Mkit.Object

/-!
# Delta Streams

A delta stream (`delta.rs`) rebuilds a byte string out of a base: after a header with the
lengths of the two come instructions that copy a range of the base or insert literal bytes.
The decoder checks every length it reads; the encoder indexes the base by blocks of sixteen
bytes, scans the target with a rolling hash and copies where a block of the base really
occurs.

`Emits base ops out` says that the instructions `ops` produce `out`. The decoder accepts
every such stream under a header with the right lengths (`decode_of_emits`), and the encoder
writes one (`emits_scan`), so what it writes decodes to the target (`decode_encode`): whether
the rolling hash is right matters for the size of a stream, never for its meaning.
-/

namespace Mkit.DeltaStream

open Wire

/-- Version byte at offset 0 of a stream. -/
def STREAM_VERSION : UInt8 := 0x01

/-- The copy opcode; its low seven bits are reserved. -/
def OP_COPY : UInt8 := 0x80

/-- Most bytes one insert instruction carries. -/
def MAX_INSERT_LEN : ℕ := 127

/-- Version byte and two lengths. -/
def HEADER_LEN : ℕ := 1 + 4 + 4

/-- Block size of the writer's index. -/
def BLOCK_SIZE : ℕ := 16

/-- Longest range one copy instruction names, `u16::MAX`. -/
def MAX_COPY_LEN : ℕ := 65535

/-! ### Decoding -/

/-- Run the instructions of a stream, appending to `out`. Every instruction takes at least its
opcode, so the length of the stream is enough rounds. -/
def decodeOps (base : Bytes) (result_len : ℕ) : ℕ → Bytes → Bytes → Except MkitError Bytes
  | _, [], out => .ok out
  | 0, _ :: _, out => .ok out
  | n + 1, op :: rest, out =>
    if op &&& 0x80 ≠ 0 then
      if op &&& 0x7F ≠ 0 then .error (.deltaCorrupt (.reservedOpcodeBits op))
      else if rest.length < 6 then .error .unexpectedEof
      else
        let offset := ofLeBytes (rest.take 4)
        let length := ofLeBytes ((rest.drop 4).take 2)
        if length = 0 then .error (.deltaCorrupt .zeroLengthCopy)
        else if base.length < offset + length then
          .error (.deltaCorrupt (.copyPastBase offset length base.length))
        else if result_len < out.length + length then
          .error (.deltaCorrupt (.resultLenOverrun out.length length result_len))
        else
          decodeOps base result_len n (rest.drop 6) (out ++ (base.drop offset).take length)
    else if 0 < op then
      let length := op.toNat
      if rest.length < length then .error .unexpectedEof
      else if result_len < out.length + length then
        .error (.deltaCorrupt (.resultLenOverrun out.length length result_len))
      else decodeOps base result_len n (rest.drop length) (out ++ rest.take length)
    else .error (.deltaCorrupt .zeroOpcode)

/-- Apply a delta stream to its base. -/
def decode (base stream : Bytes) : Except MkitError Bytes :=
  if stream.length < HEADER_LEN then .error .unexpectedEof
  else if stream.headD 0 ≠ STREAM_VERSION then .error .unsupportedObjectVersion
  else
    let base_len := ofLeBytes ((stream.drop 1).take 4)
    let result_len := ofLeBytes ((stream.drop 5).take 4)
    if base_len ≠ base.length then
      .error (.deltaCorrupt (.baseLenMismatch base_len base.length))
    else do
      let ops := stream.drop HEADER_LEN
      let out ← decodeOps base result_len ops.length ops []
      if out.length ≠ result_len then
        .error (.deltaCorrupt (.resultLenUnderrun result_len out.length))
      else .ok out

/-- What decodes has a header, and declares its own length. -/
theorem result_len_of_decode {base stream out : Bytes} (h : decode base stream = .ok out) :
    ¬ stream.length < HEADER_LEN ∧ ofLeBytes ((stream.drop 5).take 4) = out.length := by
  rw [decode] at h
  dsimp only at h
  split_ifs at h with hshort hversion hbase
  rw [Wire.bind_eq_ok] at h
  obtain ⟨out', -, h⟩ := h
  split_ifs at h with hout
  obtain rfl := Except.ok.inj h
  exact ⟨hshort, (not_not.1 hout).symm⟩

/-! ### Encoding -/

def ROLL_M : UInt64 := 0x9E3779B97F4A7C15

/-- `ROLL_M` to the power of the block size. -/
def ROLL_M_POW_BLOCK : UInt64 := ROLL_M ^ BLOCK_SIZE

/-- Polynomial hash of a block. -/
def blockHash (block : Bytes) : UInt64 :=
  block.foldl (fun h b => h * ROLL_M + b.toUInt64) 0

/-- Slide the hash of a window forward by one byte. -/
def rollForward (h : UInt64) (old new : UInt8) : UInt64 :=
  h * ROLL_M - old.toUInt64 * ROLL_M_POW_BLOCK + new.toUInt64

/-- Positions of the base's blocks by the hash of the block. -/
abbrev BlockIndex := List (UInt64 × ℕ)

/-- Index the whole blocks of a base, the first block of each hash winning. Positions are
below the length of the base, which the encoder has checked against `u32::MAX`. -/
def buildIndex (base : Bytes) : BlockIndex :=
  (List.range (base.length / BLOCK_SIZE)).foldl
    (fun index i =>
      let pos := i * BLOCK_SIZE
      let h := blockHash ((base.drop pos).take BLOCK_SIZE)
      if (index.lookup h).isSome then index else (h, pos) :: index)
    []

/-- The two lengths must fit the header. -/
def checkLengthBounds (base_len result_len : ℕ) : Except MkitError Unit :=
  if 2 ^ 32 ≤ base_len then .error (.deltaLengthOverflow "base_len" base_len)
  else if 2 ^ 32 ≤ result_len then .error (.deltaLengthOverflow "result_len" result_len)
  else .ok ()

def writeHeader (base_len result_len : ℕ) : Bytes :=
  STREAM_VERSION :: leBytes 4 base_len ++ leBytes 4 result_len

def emitCopy (offset length : ℕ) : Bytes :=
  OP_COPY :: leBytes 4 offset ++ leBytes 2 length

def flushInsert (buf : Bytes) : Bytes :=
  if buf = [] then [] else UInt8.ofNat buf.length :: buf

/-- How far two strings agree, up to a bound. -/
def commonPrefix : ℕ → Bytes → Bytes → ℕ
  | n + 1, a :: as, b :: bs => if a = b then commonPrefix n as bs + 1 else 0
  | _, _, _ => 0

/-- The block of the base that a window's hash names, when its bytes are the window's. -/
def findBlock (base : Bytes) (index : BlockIndex) (h : UInt64) (block : Bytes) : Option ℕ :=
  (index.lookup h).filter fun pos => (base.drop pos).take BLOCK_SIZE = block

/-- Scan what is left of the target. `buf` holds literals not yet written and `window` the
rolling hash of the next block, when it is known. Every round takes at least one byte, so the
length of the target is enough rounds. -/
def scan (base : Bytes) (index : BlockIndex) : ℕ → Bytes → Bytes → Option UInt64 → Bytes
  | _, [], buf, _ => flushInsert buf
  | 0, _ :: _, buf, _ => flushInsert buf
  | n + 1, b :: rest, buf, window =>
    let target := b :: rest
    let hash := if BLOCK_SIZE ≤ target.length then
        some (window.getD (blockHash (target.take BLOCK_SIZE)))
      else none
    match hash.bind fun h => findBlock base index h (target.take BLOCK_SIZE) with
    | some pos =>
      let matchLen := BLOCK_SIZE + commonPrefix (MAX_COPY_LEN - BLOCK_SIZE)
        (base.drop (pos + BLOCK_SIZE)) (target.drop BLOCK_SIZE)
      flushInsert buf ++ emitCopy pos matchLen ++
        scan base index n (target.drop matchLen) [] none
    | none =>
      let window' := hash.bind fun h =>
        target[BLOCK_SIZE]?.map fun new => rollForward h b new
      let buf' := buf ++ [b]
      if buf'.length = MAX_INSERT_LEN then
        flushInsert buf' ++ scan base index n rest [] window'
      else scan base index n rest buf' window'

/-- Build a stream that rebuilds `result` from `base`. -/
def encode (base result : Bytes) : Except MkitError Bytes := do
  checkLengthBounds base.length result.length
  .ok (writeHeader base.length result.length ++
    scan base (buildIndex base) result.length result [] none)

/-! ### What instructions mean -/

/-- The instructions `ops` turn the base into `out`. -/
inductive Emits (base : Bytes) : Bytes → Bytes → Prop
  | nil : Emits base [] []
  | insert {lit ops out : Bytes} (hne : lit ≠ []) (hlen : lit.length ≤ MAX_INSERT_LEN)
      (h : Emits base ops out) :
      Emits base (UInt8.ofNat lit.length :: lit ++ ops) (lit ++ out)
  | copy {offset length : ℕ} {ops out : Bytes} (hpos : 0 < length)
      (hlen : length ≤ MAX_COPY_LEN) (hoff : offset < 2 ^ 32)
      (hbase : offset + length ≤ base.length) (h : Emits base ops out) :
      Emits base (emitCopy offset length ++ ops) ((base.drop offset).take length ++ out)

variable {base : Bytes}

/-- One round on an insert instruction. -/
theorem decodeOps_insert {rl n : ℕ} {lit ops out : Bytes} (hne : lit ≠ [])
    (hlen : lit.length ≤ MAX_INSERT_LEN) (hrl : out.length + lit.length ≤ rl) :
    decodeOps base rl (n + 1) (UInt8.ofNat lit.length :: lit ++ ops) out =
      decodeOps base rl n ops (out ++ lit) := by
  have hpos : 0 < lit.length := List.length_pos_iff.2 hne
  have hlen : lit.length ≤ 127 := hlen
  generalize hk : lit.length = k at *
  have hto : (UInt8.ofNat k).toNat = k := by
    rw [UInt8.toNat_ofNat']
    omega
  have hcopy : UInt8.ofNat k &&& 0x80 = 0 := by
    have : ∀ m < 128, UInt8.ofNat m &&& 0x80 = 0 := by decide
    exact this k (by omega)
  have hzero : 0 < UInt8.ofNat k := by
    rw [UInt8.lt_iff_toNat_lt, hto]
    exact hpos
  rw [List.cons_append, decodeOps, if_neg (not_not.2 hcopy), if_pos hzero]
  simp only [hto]
  rw [if_neg (by rw [List.length_append]; omega), if_neg (by omega), List.take_left' hk,
    List.drop_left' hk]

/-- One round on a copy instruction. -/
theorem decodeOps_copy {rl n offset length : ℕ} {ops out : Bytes} (hpos : 0 < length)
    (hlen : length ≤ MAX_COPY_LEN) (hoff : offset < 2 ^ 32)
    (hbase : offset + length ≤ base.length) (hrl : out.length + length ≤ rl) :
    decodeOps base rl (n + 1) (emitCopy offset length ++ ops) out =
      decodeOps base rl n ops (out ++ (base.drop offset).take length) := by
  have hlen : length ≤ 65535 := hlen
  have hoffset : ofLeBytes (leBytes 4 offset) = offset := by
    rw [ofLeBytes_leBytes]
    exact Nat.mod_eq_of_lt hoff
  have hlength : ofLeBytes (leBytes 2 length) = length := by
    rw [ofLeBytes_leBytes]
    exact Nat.mod_eq_of_lt (by omega)
  have hargs : leBytes 4 offset ++ leBytes 2 length ++ ops =
      leBytes 4 offset ++ (leBytes 2 length ++ ops) := List.append_assoc _ _ _
  have htake : (leBytes 4 offset ++ leBytes 2 length ++ ops).take 4 = leBytes 4 offset := by
    rw [hargs]
    exact List.take_left' (length_leBytes _ _)
  have hdrop : (leBytes 4 offset ++ leBytes 2 length ++ ops).drop 4 =
      leBytes 2 length ++ ops := by
    rw [hargs]
    exact List.drop_left' (length_leBytes _ _)
  have hrest : (leBytes 4 offset ++ leBytes 2 length ++ ops).drop 6 = ops :=
    List.drop_left' (by simp)
  rw [emitCopy, List.cons_append, List.cons_append, decodeOps, if_pos (by decide),
    if_neg (by decide), if_neg (by simp only [List.length_append, length_leBytes]; omega)]
  simp only [htake, hdrop, hrest, List.take_left' (length_leBytes 2 length), hoffset, hlength]
  rw [if_neg (by omega), if_neg (by omega), if_neg (by omega)]

/-- The decoder runs instructions to what they emit. -/
theorem decodeOps_of_emits {ops out : Bytes} (h : Emits base ops out) {rl n : ℕ} {acc : Bytes}
    (hn : ops.length ≤ n) (hrl : acc.length + out.length ≤ rl) :
    decodeOps base rl n ops acc = .ok (acc ++ out) := by
  induction h generalizing n acc with
  | nil => cases n <;> simp [decodeOps]
  | @insert lit ops out hne hlen _ ih =>
    simp only [List.length_append, List.length_cons] at hn hrl
    obtain ⟨n, rfl⟩ : ∃ m, n = m + 1 := ⟨n - 1, by omega⟩
    rw [decodeOps_insert hne hlen (by omega),
      ih (by omega) (by rw [List.length_append]; omega), List.append_assoc]
  | @copy offset length ops out hpos hlen hoff hbase _ ih =>
    have htake : ((base.drop offset).take length).length = length := by
      rw [List.length_take, List.length_drop]
      omega
    have hcopy : (emitCopy offset length).length = 7 := by simp [emitCopy]
    rw [List.length_append, hcopy] at hn
    rw [List.length_append, htake] at hrl
    obtain ⟨n, rfl⟩ : ∃ m, n = m + 1 := ⟨n - 1, by omega⟩
    rw [decodeOps_copy hpos hlen hoff hbase (by omega),
      ih (by omega) (by rw [List.length_append, htake]; omega), List.append_assoc]

@[simp] theorem length_writeHeader (m n : ℕ) : (writeHeader m n).length = HEADER_LEN := by
  simp [writeHeader, HEADER_LEN]

/-- The result length stands at offset 5 of a stream. -/
theorem resultLen_writeHeader {m n : ℕ} (hn : n < 2 ^ 32) (ops : Bytes) :
    ofLeBytes (((writeHeader m n ++ ops).drop 5).take 4) = n := by
  have h : (writeHeader m n ++ ops).drop 5 = leBytes 4 n ++ ops := by
    rw [writeHeader, List.append_assoc]
    exact List.drop_left' (by simp)
  rw [h, List.take_left' (length_leBytes 4 n), ofLeBytes_leBytes]
  exact Nat.mod_eq_of_lt hn

/-- The decoder accepts instructions under a header with the right lengths. -/
theorem decode_of_emits {ops out : Bytes} (h : Emits base ops out)
    (hbase : base.length < 2 ^ 32) (hout : out.length < 2 ^ 32) :
    decode base (writeHeader base.length out.length ++ ops) = .ok out := by
  have hbl : ofLeBytes (((writeHeader base.length out.length ++ ops).drop 1).take 4) =
      base.length := by
    have h' : (writeHeader base.length out.length ++ ops).drop 1 =
        leBytes 4 base.length ++ (leBytes 4 out.length ++ ops) := by
      rw [writeHeader, List.append_assoc]
      rfl
    rw [h', List.take_left' (length_leBytes 4 _), ofLeBytes_leBytes]
    exact Nat.mod_eq_of_lt hbase
  have hops : (writeHeader base.length out.length ++ ops).drop HEADER_LEN = ops :=
    List.drop_left' (length_writeHeader _ _)
  rw [decode, if_neg (by simp), if_neg (by simp [writeHeader])]
  simp only [hbl, resultLen_writeHeader hout, hops]
  rw [if_neg (by simp), decodeOps_of_emits h le_rfl (by simp)]
  change (if out.length ≠ out.length then _ else _) = _
  rw [if_neg (by simp)]
  rfl

/-! ### The encoder -/

theorem commonPrefix_le (n : ℕ) (as bs : Bytes) : commonPrefix n as bs ≤ n := by
  induction n generalizing as bs with
  | zero => simp [commonPrefix]
  | succ n ih =>
    cases as with
    | nil => simp [commonPrefix]
    | cons a as =>
      cases bs with
      | nil => simp [commonPrefix]
      | cons b bs =>
        rw [commonPrefix]
        split
        · have := ih as bs
          omega
        · omega

/-- The two strings have the common part, and both reach that far. -/
theorem commonPrefix_spec (n : ℕ) (as bs : Bytes) : commonPrefix n as bs ≤ as.length ∧
      bs.take (commonPrefix n as bs) = as.take (commonPrefix n as bs) := by
  induction n generalizing as bs with
  | zero => simp [commonPrefix]
  | succ n ih =>
    cases as with
    | nil => simp [commonPrefix]
    | cons a as =>
      cases bs with
      | nil => simp [commonPrefix]
      | cons b bs =>
        rw [commonPrefix]
        split
        · rename_i hab
          subst hab
          obtain ⟨hle, htake⟩ := ih as bs
          simp [hle, htake]
        · simp

theorem emits_flushInsert {buf ops out : Bytes} (hlen : buf.length ≤ MAX_INSERT_LEN)
    (h : Emits base ops out) : Emits base (flushInsert buf ++ ops) (buf ++ out) := by
  rw [flushInsert]
  by_cases hb : buf = []
  · simpa [hb] using h
  · rw [if_neg hb]
    exact Emits.insert hb hlen h

/-- A block found in the base lies in it and has the bytes looked for. -/
theorem findBlock_eq_some {index : BlockIndex} {hash : UInt64} {block : Bytes} {pos : ℕ}
    (h : findBlock base index hash block = some pos) : (base.drop pos).take BLOCK_SIZE = block := by
  rw [findBlock, Option.filter_eq_some_iff] at h
  simpa using h.2

/-- Scanning writes instructions that emit the literals held back and then the target. -/
theorem emits_scan (hbase : base.length < 2 ^ 32) (index : BlockIndex) (n : ℕ)
    (target buf : Bytes) (window : Option UInt64) (hn : target.length ≤ n)
    (hbuf : buf.length < MAX_INSERT_LEN) :
    Emits base (scan base index n target buf window) (buf ++ target) := by
  induction n generalizing target buf window with
  | zero =>
    obtain rfl : target = [] := List.length_eq_zero_iff.1 (by omega)
    simpa [scan] using emits_flushInsert hbuf.le Emits.nil
  | succ n ih =>
    cases target with
    | nil => simpa [scan] using emits_flushInsert hbuf.le Emits.nil
    | cons b rest =>
      rw [scan]
      dsimp only
      split
      · -- a block of the base stands here: the copy covers it and what follows in common
        rename_i pos hfind
        obtain ⟨hash, hhash, hfind⟩ := Option.bind_eq_some_iff.1 hfind
        have hblock := findBlock_eq_some hfind
        have hwin : BLOCK_SIZE ≤ (b :: rest).length := by
          by_contra hlt
          rw [if_neg hlt] at hhash
          cases hhash
        have hpos : pos + BLOCK_SIZE ≤ base.length := by
          have := congrArg List.length hblock
          rw [List.length_take, List.length_take, List.length_drop] at this
          have h16 : BLOCK_SIZE = 16 := rfl
          omega
        set ext := commonPrefix (MAX_COPY_LEN - BLOCK_SIZE) (base.drop (pos + BLOCK_SIZE))
          ((b :: rest).drop BLOCK_SIZE) with hext
        have hcap : BLOCK_SIZE + ext ≤ MAX_COPY_LEN := by
          have := commonPrefix_le (MAX_COPY_LEN - BLOCK_SIZE)
            (base.drop (pos + BLOCK_SIZE)) ((b :: rest).drop BLOCK_SIZE)
          rw [← hext] at this
          have h16 : BLOCK_SIZE = 16 := rfl
          have hmax : MAX_COPY_LEN = 65535 := rfl
          omega
        obtain ⟨hle, hcommon⟩ := commonPrefix_spec (MAX_COPY_LEN - BLOCK_SIZE)
          (base.drop (pos + BLOCK_SIZE)) ((b :: rest).drop BLOCK_SIZE)
        rw [← hext] at hle hcommon
        rw [List.length_drop] at hle
        have hcopied : (base.drop pos).take (BLOCK_SIZE + ext) =
            (b :: rest).take (BLOCK_SIZE + ext) := by
          rw [List.take_add, List.take_add, hblock, List.drop_drop, hcommon]
        have hout : buf ++ b :: rest = buf ++ ((base.drop pos).take (BLOCK_SIZE + ext) ++
            (b :: rest).drop (BLOCK_SIZE + ext)) := by
          rw [hcopied, List.take_append_drop]
        rw [List.append_assoc, hout]
        refine emits_flushInsert hbuf.le (Emits.copy ?_ hcap (by omega) (by omega) ?_)
        · have h16 : BLOCK_SIZE = 16 := rfl
          omega
        · have hdrop : ((b :: rest).drop (BLOCK_SIZE + ext)).length ≤ n := by
            have h16 : BLOCK_SIZE = 16 := rfl
            rw [List.length_drop]
            omega
          exact ih _ [] none hdrop (by decide)
      · -- no block: the byte joins the literals, which are written when they are full
        have hrest : rest.length ≤ n := by
          rw [List.length_cons] at hn
          omega
        have hsnoc : buf ++ b :: rest = (buf ++ [b]) ++ rest := by simp
        have hlen : (buf ++ [b]).length = buf.length + 1 := by simp
        rw [hsnoc]
        split
        · exact emits_flushInsert (by omega) (ih rest [] _ hrest (by decide))
        · exact ih rest _ _ hrest (by omega)

/-- What the encoder writes decodes to the target. -/
theorem decode_encode {result stream : Bytes} (h : encode base result = .ok stream) :
    decode base stream = .ok result := by
  rw [encode, Wire.bind_eq_ok] at h
  obtain ⟨_, hbounds, h⟩ := h
  obtain rfl := Except.ok.inj h
  rw [checkLengthBounds] at hbounds
  split at hbounds
  · cases hbounds
  · split at hbounds
    · cases hbounds
    · exact decode_of_emits
        (emits_scan (by omega) _ _ result [] none le_rfl (by decide)) (by omega) (by omega)

/-- The encoder refuses only lengths that its header cannot hold. -/
theorem exists_encode {result : Bytes} (hbase : base.length < 2 ^ 32)
    (hresult : result.length < 2 ^ 32) : ∃ stream, encode base result = .ok stream := by
  rw [encode, checkLengthBounds, if_neg (by omega), if_neg (by omega)]
  exact ⟨_, rfl⟩

end Mkit.DeltaStream
