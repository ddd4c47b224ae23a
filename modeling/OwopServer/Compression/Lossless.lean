import OwopServer.Compression.Scan

/-!
# Chunk compression is lossless

`compressDataTo_spec` says which bytes `compress_data_to` writes, in terms of the blocks
of the first pass, and `decode_compressDataTo` that reading them recovers the chunk.
-/

namespace Owop

/-! ### The second pass -/

/-- Copying the next bytes of the data behind the filled part of the buffer. -/
theorem copyData_spec {d : Data} {di : ℕ} {xs rest : Bytes} (ws : Bytes) (curr ci m : ℕ)
    (hd : d.toList.drop di = xs ++ rest) (hws : ws.length = curr + ci) (hm : xs.length ≤ m) :
  copyData d curr xs.length (Buffer.filled ws m) ci di
    = some (Buffer.filled (ws ++ xs) (m - xs.length), ci + xs.length, di + xs.length)
  := by
  induction xs generalizing ci di m ws with
  | nil => simp [copyData]
  | cons b xs ih =>
      rw [List.length_cons] at hm
      have hb : d[di]? = some b := by
        rw [← Vector.getElem?_toList, ← Nat.add_zero di, ← List.getElem?_drop, hd]
        rfl
      have hrest : d.toList.drop (di + 1) = xs ++ rest := by
        rw [← List.drop_drop, hd]
        rfl
      have hwrite := Buffer.write_filled ws [b] (n := m) (by simp; omega)
      rw [hws, List.length_singleton] at hwrite
      rw [List.length_cons, copyData, hb]
      simp only [Option.bind_eq_bind, Option.bind_some, hwrite]
      rw [ih _ _ _ hrest (by simp [hws, Nat.add_assoc]) (by omega), List.append_assoc,
        List.singleton_append]
      congr 3
      · omega
      · omega
      · omega

/-- Writing the offsets of the runs behind the filled part of the buffer. -/
theorem writePositions_spec (ws : Bytes) (curr m : ℕ) (ps : List CompressedPoint)
    (hws : ws.length = curr) (hm : 2 * ps.length ≤ m) :
  writePositions ps (Buffer.filled ws m) curr
    = some (Buffer.filled (ws ++ ps.flatMap fun p => uint16Bytes p.pos) (m - 2 * ps.length),
        curr + 2 * ps.length)
  := by
  induction ps generalizing m curr ws with
  | nil => simp [writePositions]
  | cons p ps ih =>
      rw [List.length_cons] at hm
      have hwrite := Buffer.write_filled ws (uint16Bytes p.pos) (n := m) (by simp; omega)
      rw [hws, length_uint16Bytes] at hwrite
      rw [writePositions, hwrite]
      simp only [Option.bind_eq_bind, Option.bind_some]
      rw [ih _ _ _ (by simp [hws]) (by omega), List.length_cons, List.flatMap_cons,
        List.append_assoc,
        show m - 2 - 2 * ps.length = m - 2 * (ps.length + 1) by omega,
        show curr + 2 + 2 * ps.length = curr + 2 * (ps.length + 1) by omega]

/-- Writing blocks behind the filled part of the buffer. -/
theorem writeRuns_spec {d : Data} (ws : Bytes) (curr off di m : ℕ) (bs : List Block)
    {tail : List RGB} (hd : d.toList.drop di = raw (pixelsOf bs ++ tail))
    (hws : ws.length = curr + off) (hm : bodySize bs ≤ m) (hoff : off + bodySize bs < 2 ^ 16)
    (hlong : ∀ b ∈ bs, 3 ≤ b.len) :
  writeRuns d curr (pointsOf off bs) (Buffer.filled ws m) off di
    = some (Buffer.filled (ws ++ bs.flatMap Block.body) (m - bodySize bs),
        off + bodySize bs, di + 3 * (pixelsOf bs).length)
  := by
  induction bs generalizing off di m ws with
  | nil => simp [writeRuns, pointsOf, bodySize, pixelsOf]
  | cons b bs ih =>
      obtain ⟨hb, hbs⟩ := List.forall_mem_cons.mp hlong
      rw [bodySize_cons, Block.size] at hm hoff
      obtain ⟨n, hn⟩ := Nat.exists_eq_add_of_le hb
      have hsplit : d.toList.drop di
          = raw b.lit ++ (b.clr.bytes ++ (raw (List.replicate (2 + n) b.clr)
            ++ raw (pixelsOf bs ++ tail))) := by
        rw [hd, pixelsOf, List.flatMap_cons, Block.pixels, hn,
          show 3 + n = 1 + (2 + n) by omega, List.replicate_add]
        simp [raw_append, raw_cons, pixelsOf]
      have hlen : 3 * b.lit.length + 3 * b.len ≤ 768 := by
        have := congrArg List.length hsplit
        simp only [List.length_drop, Vector.length_toList, List.length_append, length_raw,
          List.length_replicate, RGB.length_bytes] at this
        omega
      have hpos : (b.point off).pos.toNat - off = (raw b.lit).length := by
        simp only [Block.point, UInt16.toNat_ofNat', length_raw]
        omega
      have hcount : (b.point off).length.toNat = b.len := by
        simp only [Block.point, UInt16.toNat_ofNat']
        omega
      have hafter : d.toList.drop (di + (raw b.lit).length)
          = b.clr.bytes ++ (raw (List.replicate (2 + n) b.clr)
            ++ raw (pixelsOf bs ++ tail)) := by
        rw [← List.drop_drop, hsplit, List.drop_left]
      have hnext : d.toList.drop (di + 3 * b.len + (raw b.lit).length)
          = raw (pixelsOf bs ++ tail) := by
        rw [show di + 3 * b.len + (raw b.lit).length
            = di + (raw b.lit).length + 3 + 3 * (2 + n) by omega,
          ← List.drop_drop, ← List.drop_drop, hafter, List.drop_left' (RGB.length_bytes _),
          List.drop_left']
        simp
      have hrun := Buffer.write_filled (ws ++ raw b.lit) (uint16Bytes (b.point off).length)
        (n := m - (raw b.lit).length) (by simp; omega)
      rw [List.length_append, hws, Nat.add_assoc, length_uint16Bytes] at hrun
      have hclr := copyData_spec (ws ++ raw b.lit ++ uint16Bytes (b.point off).length) curr
        (off + (raw b.lit).length + 2) (m - (raw b.lit).length - 2) hafter
        (by simp only [List.length_append, hws, length_uint16Bytes]; omega)
        (by simp only [RGB.length_bytes, length_raw]; omega)
      rw [RGB.length_bytes] at hclr
      rw [pointsOf, writeRuns, hpos, copyData_spec ws curr off m hsplit hws (by simp; omega)]
      simp only [Option.bind_eq_bind, Option.bind_some, hrun, hclr]
      rw [hcount, show off + (raw b.lit).length + 2 + 3 = off + b.size by
          simp only [Block.size, length_raw]; omega,
        show di + (raw b.lit).length + 3 + (b.len * 3 - 3) = di + 3 * b.len + (raw b.lit).length
          by omega,
        ih _ _ _ _ hnext _ _ _ hbs]
      · have hbody : ws ++ raw b.lit ++ uint16Bytes (b.point off).length ++ b.clr.bytes
            = ws ++ b.body := by
          simp [Block.body, Block.point]
        rw [hbody, List.flatMap_cons, List.append_assoc, bodySize_cons, Block.size, length_raw]
        congr 3
        · omega
        · omega
        · simp only [pixelsOf, List.flatMap_cons, List.length_append, Block.pixels,
            List.length_replicate]
          omega
      · simp only [List.length_append, hws, length_uint16Bytes, Block.size, RGB.length_bytes,
          length_raw]
        omega
      · simp only [length_raw]
        omega
      · simp only [Block.size]
        omega

/-! ### The bytes of the message -/

/-- The ten bytes in front of a chunk message. -/
def Chunk.header (c : Chunk) : Bytes :=
  [ServerMessage.chunkData.byte] ++ (int32Bytes c.cx ++ (int32Bytes c.cy ++ [boolByte c.ranked]))

/-- The message for a chunk whose pixels are the blocks `bs` and the rest `tail`. -/
def Chunk.message (c : Chunk) (bs : List Block) (tail : List RGB) : Bytes :=
  c.header ++ (uint16Bytes 768 ++ (uint16Bytes (UInt16.ofNat bs.length)
    ++ ((pointsOf 0 bs).flatMap (fun p => uint16Bytes p.pos)
      ++ (bs.flatMap Block.body ++ raw tail))))

theorem length_flatMap_body (bs : List Block) :
  (bs.flatMap Block.body).length = bodySize bs
  := by
  induction bs with
  | nil => rfl
  | cons b bs ih => rw [List.flatMap_cons, List.length_append, ih, Block.length_body, bodySize_cons]

theorem length_flatMap_pos (ps : List CompressedPoint) :
  (ps.flatMap fun p => uint16Bytes p.pos).length = 2 * ps.length
  := by
  induction ps with
  | nil => rfl
  | cons p ps ih =>
      rw [List.flatMap_cons, List.length_append, ih, length_uint16Bytes, List.length_cons]
      omega

theorem Chunk.length_message (c : Chunk) (bs : List Block) (tail : List RGB) :
  (c.message bs tail).length = 14 + 2 * bs.length + bodySize bs + 3 * tail.length
  := by
  simp only [Chunk.message, Chunk.header, List.length_append, length_flatMap_body,
    length_flatMap_pos, length_pointsOf, length_raw, length_int32Bytes, length_uint16Bytes,
    List.length_cons, List.length_nil]
  omega

/-- `compress_data_to` fills the front of its buffer with the message for the blocks its
first pass finds, and returns the length of that message. -/
theorem Chunk.compressDataTo_spec (c : Chunk) :
  ∃ bs tail, c.data.pixels = pixelsOf bs ++ tail ∧ (∀ b ∈ bs, 3 ≤ b.len) ∧
    bodySize bs + 4 * bs.length + 3 * tail.length ≤ 768 ∧
    c.compressDataTo (Buffer.fresh 782)
      = some (Buffer.filled (c.message bs tail) (782 - (c.message bs tail).length),
          (c.message bs tail).length)
  := by
  obtain ⟨s, bs, tail, hscan, hpixels, hlong, hpos, hbytes⟩ := scanData_spec c.data
  have hsize : bodySize bs + 4 * bs.length + 3 * tail.length ≤ 768 := by
    have := bodySize_le hlong
    have hlen := congrArg List.length hpixels
    simp only [Data.length_pixels, List.length_append] at hlen
    omega
  have hraw : c.data.toList = raw (pixelsOf bs ++ tail) := by
    rw [c.data.toList_eq_raw, hpixels]
  have hareas : (UInt16.ofNat s.compressedPos.length).toNat = bs.length := by
    rw [hpos, length_pointsOf, UInt16.toNat_ofNat']
    omega
  use bs, tail, hpixels, hlong, hsize
  have hop := Buffer.write_filled [] [ServerMessage.chunkData.byte] (n := 782) (by simp)
  have hcx := Buffer.write_filled ([ServerMessage.chunkData.byte]) (int32Bytes c.cx)
    (n := 781) (by simp)
  have hcy := Buffer.write_filled ([ServerMessage.chunkData.byte] ++ int32Bytes c.cx)
    (int32Bytes c.cy) (n := 777) (by simp)
  have hranked := Buffer.write_filled
    ([ServerMessage.chunkData.byte] ++ int32Bytes c.cx ++ int32Bytes c.cy)
    [boolByte c.ranked] (n := 773) (by simp)
  have hheader : [ServerMessage.chunkData.byte] ++ int32Bytes c.cx ++ int32Bytes c.cy
      ++ [boolByte c.ranked] = c.header := by
    simp [Chunk.header]
  rw [hheader] at hranked
  have hhlen : c.header.length = 10 := by simp [Chunk.header]
  have hs := Buffer.write_filled c.header (uint16Bytes 768) (n := 772) (by simp)
  have hn := Buffer.write_filled (c.header ++ uint16Bytes 768)
    (uint16Bytes (UInt16.ofNat s.compressedPos.length)) (n := 770) (by simp)
  have hpositions := writePositions_spec
    (c.header ++ uint16Bytes 768 ++ uint16Bytes (UInt16.ofNat s.compressedPos.length)) 14 768
    s.compressedPos (by simp [hhlen]) (by rw [hpos, length_pointsOf]; omega)
  have hfirst : c.data.toList.drop 0 = raw (pixelsOf bs ++ tail) := by rw [List.drop_zero, hraw]
  have hruns := writeRuns_spec
    (c.header ++ uint16Bytes 768 ++ uint16Bytes (UInt16.ofNat s.compressedPos.length)
      ++ s.compressedPos.flatMap fun p => uint16Bytes p.pos)
    (14 + 2 * s.compressedPos.length) 0 0 (768 - 2 * s.compressedPos.length) bs hfirst
    (by simp only [List.length_append, hhlen, length_uint16Bytes, length_flatMap_pos]; omega)
    (by rw [hpos, length_pointsOf]; omega) (by omega) hlong
  rw [← hpos] at hruns
  have htail : c.data.toList.drop (0 + 3 * (pixelsOf bs).length) = raw tail ++ [] := by
    rw [hraw, raw_append, List.drop_left' (by simp), List.append_nil]
  have hcopy := copyData_spec
    (c.header ++ uint16Bytes 768 ++ uint16Bytes (UInt16.ofNat s.compressedPos.length)
      ++ (s.compressedPos.flatMap fun p => uint16Bytes p.pos) ++ bs.flatMap Block.body)
    (14 + 2 * s.compressedPos.length) (0 + bodySize bs)
    (768 - 2 * s.compressedPos.length - bodySize bs) htail
    (by
      simp only [List.length_append, hhlen, length_uint16Bytes, length_flatMap_pos,
        length_flatMap_body]
      omega)
    (by rw [hpos, length_pointsOf, length_raw]; omega)
  have hrest : 768 - (0 + 3 * (pixelsOf bs).length) = (raw tail).length := by
    have hlen := congrArg List.length hpixels
    simp only [Data.length_pixels, List.length_append] at hlen
    simp only [length_raw]
    omega
  simp only [List.length_append, List.length_cons, List.length_nil, length_int32Bytes, hhlen,
    length_uint16Bytes, List.nil_append, Nat.reduceAdd, Nat.reduceSub] at hop hcx hcy hranked hs hn
  rw [Buffer.fresh_eq_filled, Chunk.compressDataTo, hscan]
  simp only [Option.bind_eq_bind, Option.bind_some, hop, hcx, hcy, hranked, hs, hn, hpositions,
    hruns, hrest, hcopy, Option.pure_def, Option.some.injEq, Prod.mk.injEq]
  constructor
  · have hmessage : c.header ++ uint16Bytes 768
          ++ uint16Bytes (UInt16.ofNat s.compressedPos.length)
          ++ (s.compressedPos.flatMap fun p => uint16Bytes p.pos) ++ bs.flatMap Block.body
          ++ raw tail = c.message bs tail := by
      simp [Chunk.message, hpos]
    have hroom : 768 - 2 * s.compressedPos.length - bodySize bs - (raw tail).length
        = 782 - (14 + 2 * bs.length + bodySize bs + 3 * tail.length) := by
      rw [hpos, length_pointsOf, length_raw]
      omega
    rw [hmessage, hroom, c.length_message]
  · rw [c.length_message, hareas, hbytes]
    omega

/-! ### Reading the message back -/

/-- Expanding the bytes of blocks and a rest gives the bytes of their pixels. -/
theorem decodeBody_spec (off : ℕ) (bs : List Block) (tail : List RGB)
    (hoff : off + bodySize bs < 2 ^ 16) (hlen : (pixelsOf bs).length < 2 ^ 16) :
  decodeBody ((pointsOf off bs).map fun p => p.pos.toNat) off (bs.flatMap Block.body ++ raw tail)
    = some (raw (pixelsOf bs ++ tail))
  := by
  induction bs generalizing off with
  | nil => rfl
  | cons b bs ih =>
      rw [bodySize_cons, Block.size] at hoff
      rw [pixelsOf, List.flatMap_cons, List.length_append, Block.pixels, List.length_append,
        List.length_replicate] at hlen
      have hpos : (b.point off).pos.toNat = off + 3 * b.lit.length := by
        simp only [Block.point, UInt16.toNat_ofNat']
        omega
      have hcount : (UInt16.ofNat b.len).toNat = b.len := by
        rw [UInt16.toNat_ofNat']
        omega
      have hbody : (b :: bs).flatMap Block.body ++ raw tail
          = raw b.lit ++ (uint16Bytes (UInt16.ofNat b.len) ++ (b.clr.bytes
            ++ (bs.flatMap Block.body ++ raw tail))) := by
        simp [Block.body]
      have hlit : off + 3 * b.lit.length - off = (raw b.lit).length := by
        rw [length_raw]
        omega
      have hrest := ih (off + b.size) (by rw [Block.size]; omega)
        (by rw [pixelsOf]; omega)
      rw [pointsOf, List.map_cons, decodeBody, hpos, hlit, hbody]
      have hdrop : (raw b.lit ++ (uint16Bytes (UInt16.ofNat b.len) ++ (b.clr.bytes
          ++ (bs.flatMap Block.body ++ raw tail)))).drop ((raw b.lit).length + 5)
          = bs.flatMap Block.body ++ raw tail := by
        rw [show (raw b.lit).length + 5 = (raw b.lit).length + (2 + 3) by rfl,
          ← List.drop_drop, ← List.drop_drop, List.drop_left,
          List.drop_left' (length_uint16Bytes _), List.drop_left' (RGB.length_bytes _)]
      have hguard : (raw b.lit).length + 5 ≤ (raw b.lit ++ (uint16Bytes (UInt16.ofNat b.len)
          ++ (b.clr.bytes ++ (bs.flatMap Block.body ++ raw tail)))).length := by
        simp only [List.length_append, length_uint16Bytes, RGB.length_bytes]
        omega
      have hsize : off + 3 * b.lit.length + 5 = off + b.size := by
        rw [Block.size]
        omega
      simp only [Option.bind_eq_bind, guard, if_pos hguard, Option.pure_def, Option.bind_some]
      have hclr : Bytes.slice (raw b.lit ++ (uint16Bytes (UInt16.ofNat b.len) ++ (b.clr.bytes
          ++ (bs.flatMap Block.body ++ raw tail)))) ((raw b.lit).length + 2) 3 = b.clr.bytes :=
        Bytes.slice_of_eq (a := raw b.lit ++ uint16Bytes (UInt16.ofNat b.len))
          (List.append_assoc _ _ _).symm (by simp) (RGB.length_bytes _)
      rw [hdrop, hsize, hrest, Bytes.slice_of_eq rfl rfl (length_uint16Bytes _), hclr,
        Option.bind_some, List.take_left, leNat_uint16Bytes, hcount]
      have hpix : raw (pixelsOf (b :: bs) ++ tail)
          = raw b.lit ++ (List.replicate b.len b.clr.bytes).flatten
            ++ raw (pixelsOf bs ++ tail) := by
        simp [pixelsOf, Block.pixels, raw, List.flatMap_def]
      rw [hpix]

/-- The data with the bytes of `d` are `d`. -/
theorem Data.ofBytes_toList (d : Data) :
  Data.ofBytes d.toList = some d
  := by
  rw [Data.ofBytes, dif_pos (by simp)]
  congr 1

/-- Reading the message for a chunk cut into blocks recovers the chunk. -/
theorem decodeChunk_message (c : Chunk) {bs : List Block} {tail : List RGB}
    (hpixels : c.data.pixels = pixelsOf bs ++ tail)
    (hsize : bodySize bs + 4 * bs.length + 3 * tail.length ≤ 768) :
  decodeChunk (c.message bs tail) = some (c.cx, c.cy, c.ranked, c.data)
  := by
  have hcount : (UInt16.ofNat bs.length).toNat = bs.length := by
    rw [UInt16.toNat_ofNat']
    omega
  have hhlen : c.header.length = 10 := by simp [Chunk.header]
  have hop : (c.message bs tail).slice 0 1 = [ServerMessage.chunkData.byte] :=
    Bytes.slice_of_eq (a := []) (by simp [Chunk.message, Chunk.header]; rfl) rfl rfl
  have hcx : (c.message bs tail).slice 1 4 = int32Bytes c.cx :=
    Bytes.slice_of_eq (a := [ServerMessage.chunkData.byte])
      (by simp [Chunk.message, Chunk.header]; rfl) rfl (length_int32Bytes _)
  have hcy : (c.message bs tail).slice 5 4 = int32Bytes c.cy :=
    Bytes.slice_of_eq (a := [ServerMessage.chunkData.byte] ++ int32Bytes c.cx)
      (by simp [Chunk.message, Chunk.header]; rfl) (by simp) (length_int32Bytes _)
  have hranked : (c.message bs tail).slice 9 1 = [boolByte c.ranked] :=
    Bytes.slice_of_eq (a := [ServerMessage.chunkData.byte] ++ int32Bytes c.cx ++ int32Bytes c.cy)
      (by simp [Chunk.message, Chunk.header]; rfl) (by simp) rfl
  have hlen : (c.message bs tail).slice 10 2 = uint16Bytes 768 :=
    Bytes.slice_of_eq rfl hhlen (length_uint16Bytes _)
  have hn : (c.message bs tail).slice 12 2 = uint16Bytes (UInt16.ofNat bs.length) :=
    Bytes.slice_of_eq (a := c.header ++ uint16Bytes 768)
      (by rw [Chunk.message, List.append_assoc]) (by simp [hhlen]) (length_uint16Bytes _)
  have hsplit : c.message bs tail
      = (c.header ++ uint16Bytes 768 ++ uint16Bytes (UInt16.ofNat bs.length))
        ++ ((pointsOf 0 bs).flatMap (fun p => uint16Bytes p.pos)
          ++ (bs.flatMap Block.body ++ raw tail)) := by
    simp [Chunk.message]
  have hplen : (c.header ++ uint16Bytes 768
      ++ uint16Bytes (UInt16.ofNat bs.length)).length = 14 := by
    simp [hhlen]
  have hpositions : (List.range bs.length).map
        (fun i => Bytes.leNat ((c.message bs tail).slice (14 + 2 * i) 2))
      = (pointsOf 0 bs).map fun p => p.pos.toNat := by
    have hs := Bytes.slice_flatMap (fun p : CompressedPoint => length_uint16Bytes p.pos) _
      (bs.flatMap Block.body ++ raw tail) hplen (pointsOf 0 bs)
    rw [← hsplit, length_pointsOf] at hs
    have hm := congrArg (List.map Bytes.leNat) hs
    rw [List.map_map, List.map_map] at hm
    rw [show (fun i => Bytes.leNat ((c.message bs tail).slice (14 + 2 * i) 2))
        = Bytes.leNat ∘ fun i => (c.message bs tail).slice (14 + 2 * i) 2 from rfl, hm]
    apply List.map_congr_left
    intro p _
    exact leNat_uint16Bytes p.pos
  have hbody : (c.message bs tail).drop (14 + 2 * bs.length)
      = bs.flatMap Block.body ++ raw tail := by
    rw [hsplit, ← List.drop_drop, List.drop_left' hplen, List.drop_left']
    rw [length_flatMap_pos, length_pointsOf]
  have hpix : (pixelsOf bs).length ≤ 256 := by
    have := congrArg List.length hpixels
    simp only [Data.length_pixels, List.length_append] at this
    omega
  have hdecode := decodeBody_spec 0 bs tail (by omega) (by omega)
  rw [← hpixels, ← c.data.toList_eq_raw] at hdecode
  have hdata : (c.data.toList.length = (768 : UInt16).toNat) := Vector.length_toList
  simp only [decodeChunk, hop, hn, leNat_uint16Bytes, hcount, hpositions, hbody, hlen, hcx, hcy,
    hranked, guard, if_true, Option.bind_eq_bind, Option.pure_def, Option.bind_some, hdecode,
    if_pos hdata, c.data.ofBytes_toList, int32Of_int32Bytes]
  cases c.ranked
  case false => rfl
  case true => rfl

/-- What is sent is what `compress_data_to` has written. -/
theorem Chunk.dataMsg_eq {c : Chunk} {bytes : Bytes} {n : ℕ}
    (h : c.compressDataTo (Buffer.fresh 782) = some (Buffer.filled bytes n, bytes.length)) :
  c.dataMsg = bytes
  := by
  unfold Chunk.dataMsg
  generalize c.compressDataTo (Buffer.fresh 782) = r at h
  subst h
  simp only [Buffer.contents_filled, Option.getD_some]

/-- The message a chunk is sent in is one of a chunk. -/
theorem Chunk.head?_dataMsg (c : Chunk) :
  c.dataMsg.head? = some ServerMessage.chunkData.byte
  := by
  obtain ⟨bs, tail, -, -, -, h⟩ := c.compressDataTo_spec
  rw [dataMsg_eq h]
  rfl

/-- The message a chunk is sent in carries the chunk. -/
theorem decodeChunk_dataMsg (c : Chunk) :
  decodeChunk c.dataMsg = some (c.cx, c.cy, c.ranked, c.data)
  := by
  obtain ⟨bs, tail, hpixels, _, hsize, h⟩ := c.compressDataTo_spec
  rw [Chunk.dataMsg_eq h]
  apply decodeChunk_message c hpixels hsize

/-- Chunk compression is lossless: the bytes `compress_data_to` counts were all written,
and they decode to the coordinates, the protection flag and the data of the chunk. -/
theorem decode_compressDataTo (c : Chunk) :
  ∃ msg size bytes, c.compressDataTo (Buffer.fresh 782) = some (msg, size) ∧
    msg.contents size = some bytes ∧ decodeChunk bytes = some (c.cx, c.cy, c.ranked, c.data)
  := by
  obtain ⟨bs, tail, hpixels, _, hsize, h⟩ := c.compressDataTo_spec
  refine ⟨_, _, c.message bs tail, h, ?_, ?_⟩
  · apply Buffer.contents_filled
  · apply decodeChunk_message c hpixels hsize

end Owop
