import Eddy.Cache.Format
import Eddy.Cache.Locks
import Eddy.Index.Alloc

/-!
# Eddy — objects are read back as they were written

The four segments of an object, header, key, meta data and data, lie one behind the other inside its
region. `Written` says what the memory holds when a part of the data was written, however it was cut
into calls of `ed_write`; the checksum of the data is continued by every call.
-/

namespace Eddy

open Bytes List

namespace Raw

variable (c : CacheCfg) (b : CrcBuild) {n off x : Nat}

/-! ## The layout -/

/-- Where the meta data of an object lie. -/
def metaAt (a : EdObjectAttr) : Nat := objMetaOffset c.build a.key.length

/-- Where its data lie. -/
def dataAt (a : EdObjectAttr) : Nat :=
  objDataOffset c.build a.key.length a.metadata.length c.pagealign

theorem layout (hbs : 0 < c.blockSize) (a : EdObjectAttr) :
    objKeyOffset + a.key.length < metaAt c a ∧ metaAt c a + a.metadata.length ≤ dataAt c a ∧
      dataAt c a + a.datalen ≤ a.size c := by
  refine ⟨edAlignSize_ge _ _ c.build.maxAlign_pos, edAlignSize_ge _ _ ?_, edAlignSize_ge _ _ hbs⟩
  split
  · exact c.build.pageSize_pos
  · exact c.build.maxAlign_pos

/-! ## What the memory holds -/

/-- The lengths that the attributes may have. -/
structure Sized (a : EdObjectAttr) : Prop where
  key : a.key.length < 2 ^ 16
  metadata : a.metadata.length < 2 ^ 16
  data : a.datalen < 2 ^ 32

/-- The lengths in the header are those of the attributes. -/
structure Lengths (a : EdObjectAttr) (m : Image) : Prop where
  key : keylen b m = a.key.length
  metadata : metalen b m = a.metadata.length
  data : datalen b m = a.datalen

/-- The checksum of the meta data. -/
def metaSum (a : EdObjectAttr) : UInt32 :=
  if c.checksum ∧ a.metadata ≠ [] then edCrc32c b 0 0 a.metadata else 0

/-- The checksum of the data that was written. -/
def dataSum (bs : List UInt8) : UInt32 := if c.checksum then edCrc32c b 0 0 bs else 0

/-- The memory `m0` after the segments were written, the data as far as `bs` goes. -/
structure Holds (a : EdObjectAttr) (m0 : Image) (bs : List UInt8) (m : Image) : Prop where
  lengths : Lengths b a m
  metacrc : Raw.metacrc b m = metaSum c b a
  key : peek m objKeyOffset a.key.length = a.key
  metadata : peek m (metaAt c a) a.metadata.length = a.metadata
  data : peek m (dataAt c a) bs.length = bs
  outside : ∀ x, a.size c ≤ x → m x = m0 x

/-- An object after `ed_create`, and after the data `bs` was written. -/
structure Written (a : EdObjectAttr) (m0 : Image) (bs : List UInt8) (s : Mapped) : Prop where
  obj : s.obj = ⟨metaAt c a, dataAt c a, a.key.length, a.metadata.length, metaSum c b a, a.datalen,
    bs.length, dataSum c b bs, a.size c, false⟩
  holds : Holds c b a m0 bs s.img
  datacrc : bs.length = a.datalen → Raw.datacrc b s.img = dataSum c b bs

section Frame

variable {b} {a : EdObjectAttr} {m m' : Image}

theorem ordered_ordered (bs : List UInt8) : b.ordered (b.ordered bs) = bs := by
  unfold CrcBuild.ordered
  cases b.order with
  | little => rfl
  | big => exact reverse_reverse bs

theorem length_fieldBytes (n v : Nat) : (fieldBytes b n v).length = n := by
  unfold fieldBytes CrcBuild.ordered
  cases b.order <;> simp

theorem number_fieldBytes {v : Nat} (hv : v < 256 ^ n) :
    number (b.ordered (fieldBytes b n v)) = v := by
  rw [fieldBytes, ordered_ordered, number_leBytes hv]

theorem field_congr (hm : ∀ x, off ≤ x → x < off + n → m' x = m x) :
    field b m' off n = field b m off n := congrArg (fun l => number (b.ordered l)) (peek_congr hm)

theorem field_set (m : Image) (off : Nat) (crc : UInt32) :
    UInt32.ofNat (field b (poke m off (fieldBytes b 4 crc.toNat)) off 4) = crc := by
  have h := peek_poke_self m off (fieldBytes b 4 crc.toNat)
  rw [length_fieldBytes] at h
  rw [field, h, number_fieldBytes crc.toNat_lt, UInt32.ofNat_toNat]

theorem Lengths.congr (h : Lengths b a m) (hm : ∀ x, x < 40 → m' x = m x) : Lengths b a m' := by
  refine ⟨?_, ?_, ?_⟩
  · exact (field_congr fun x _ hx => hm x (by omega)).trans h.key
  · exact (field_congr fun x _ hx => hm x (by omega)).trans h.metadata
  · exact (field_congr fun x _ hx => hm x (by omega)).trans h.data

theorem Lengths.objMeta (h : Lengths b a m) : objMeta c b m = metaAt c a := by
  unfold Raw.objMeta metaAt
  rw [h.key]

theorem Lengths.objData (h : Lengths b a m) : objData c b m = dataAt c a := by
  unfold Raw.objData dataAt
  rw [h.key, h.metadata]

theorem Lengths.poke {bs : List UInt8} (h : Lengths b a m) (hoff : 40 ≤ off) :
    Lengths b a (poke m off bs) := h.congr fun x hx => poke_of_notMem (Or.inl (by omega))

theorem datacrc_poke {bs : List UInt8} (hoff : 48 ≤ off) :
    Raw.datacrc b (poke m off bs) = Raw.datacrc b m :=
  congrArg UInt32.ofNat (field_congr fun _ _ hx => poke_of_notMem (Or.inl (by omega)))

theorem setMetacrc_of_notMem {crc : UInt32} (h : x < 40 ∨ 44 ≤ x) :
    setMetacrc b m crc x = m x := poke_of_notMem (by rwa [length_fieldBytes])

theorem setDatacrc_of_notMem {crc : UInt32} (h : x < 44 ∨ 48 ≤ x) :
    setDatacrc b m crc x = m x := poke_of_notMem (by rwa [length_fieldBytes])

theorem zero_of_notMem (h : x < off ∨ off + n ≤ x) : zero m off n x = m x :=
  poke_of_notMem (by rwa [length_replicate])

end Frame

/-! ## `ed_create` -/

section Create

variable {a : EdObjectAttr} {m : Image}

theorem length_bytes (h : Hdr) : (h.bytes b).length = 48 := by
  simp only [Hdr.bytes, length_append, length_fieldBytes]

theorem hdr_field {h : Hdr} {v : Nat} (hf : ((h.bytes b).drop off).take n = fieldBytes b n v)
    (hoff : off + n ≤ 48) (hv : v < 256 ^ n) : field b (poke m 0 (h.bytes b)) off n = v := by
  have hpart : peek (poke m 0 (h.bytes b)) (0 + off) n = _ :=
    peek_poke_part m 0 off (by rwa [length_bytes])
  rw [Nat.zero_add] at hpart
  rw [field, hpart, hf, number_fieldBytes hv]

theorem hdr_lengths (hs : Sized a) (now : Nat) :
    Lengths b a (poke m 0 ((newHdr c a now).bytes b)) := by
  have hkey : a.key.length < 256 ^ 2 := hs.key
  have hmeta : a.metadata.length < 256 ^ 2 := hs.metadata
  have hdata : a.datalen < 256 ^ 4 := hs.data
  refine ⟨hdr_field b ?_ (by decide) hkey, hdr_field b ?_ (by decide) hmeta,
    hdr_field b ?_ (by decide) hdata⟩ <;>
  simp [Hdr.bytes, drop_append, length_fieldBytes, drop_eq_nil_of_le, newHdr]

theorem hdr_sums (now : Nat) : Raw.metacrc b (poke m 0 ((newHdr c a now).bytes b)) = 0 ∧
    Raw.datacrc b (poke m 0 ((newHdr c a now).bytes b)) = 0 := by
  refine ⟨congrArg UInt32.ofNat (hdr_field b (v := 0) ?_ (by decide) (by decide)),
    congrArg UInt32.ofNat (hdr_field b (v := 0) ?_ (by decide) (by decide))⟩ <;>
  simp [Hdr.bytes, drop_append, length_fieldBytes, drop_eq_nil_of_le, newHdr]

theorem createMeta_spec (hl : Lengths b a m) (hsum : Raw.metacrc b m = 0)
    (hat : 48 < metaAt c a) (addr : Nat) :
    Raw.metacrc b (createMeta c b a addr m) = metaSum c b a ∧
      peek (createMeta c b a addr m) (metaAt c a) a.metadata.length = a.metadata ∧
      ∀ x, x < 40 ∨ (44 ≤ x ∧ x < metaAt c a) ∨ metaAt c a + a.metadata.length ≤ x →
        createMeta c b a addr m x = m x := by
  unfold createMeta
  by_cases hne : a.metadata = []
  · rw [if_neg (not_not.mpr hne)]
    refine ⟨?_, ?_, fun _ _ => rfl⟩
    · rw [hsum, metaSum, if_neg fun h => h.2 hne]
    · rw [hne]
      rfl
  · rw [if_pos hne]
    simp only [objWrite, hl.objMeta c, hsum]
    refine ⟨?_, ?_, fun x hx => ?_⟩
    · rw [Raw.metacrc, setMetacrc, field_set, metaSum]
      by_cases hc : c.checksum = true
      · rw [if_pos hc, if_pos ⟨hc, hne⟩, edCrc32c_addr b addr 0]
      · rw [if_neg hc, if_neg fun h => hc h.1]
    · refine (peek_congr fun x hx _ => ?_).trans (peek_poke_self m (metaAt c a) a.metadata)
      exact setMetacrc_of_notMem (Or.inr (by omega))
    · rw [setMetacrc_of_notMem (by omega), poke_of_notMem (by omega)]

/-- `ed_create` leaves the key and the meta data in the memory, and the region only is changed. -/
theorem edCreate_written (hbs : 0 < c.blockSize) (hs : Sized a) (now addr : Nat) :
    Written c b a m [] (edCreate c b a now addr m) := by
  obtain ⟨hkey, hmeta, hdata⟩ := layout c hbs a
  change 48 + a.key.length < metaAt c a at hkey
  unfold edCreate
  -- the header
  have hl1 : Lengths b a (poke m 0 ((newHdr c a now).bytes b)) := hdr_lengths c b hs now
  obtain ⟨hmsum1, hdsum1⟩ := hdr_sums c b (m := m) (a := a) now
  have hout1 : ∀ x, 48 ≤ x → poke m 0 ((newHdr c a now).bytes b) x = m x :=
    fun x hx => poke_of_notMem (Or.inr (by rwa [length_bytes]))
  generalize poke m 0 ((newHdr c a now).bytes b) = m1 at hl1 hmsum1 hdsum1 hout1
  -- the key, and zeros up to the meta data
  have hl2 : Lengths b a (poke m1 48 a.key) := hl1.poke (by decide)
  have hl3 : Lengths b a (zero (poke m1 48 a.key) (48 + a.key.length)
      (metaAt c a - (48 + a.key.length))) := hl2.poke (by omega)
  have hin3 : ∀ x, x < 48 + a.key.length → zero (poke m1 48 a.key) (48 + a.key.length)
      (metaAt c a - (48 + a.key.length)) x = poke m1 48 a.key x :=
    fun x hx => zero_of_notMem (Or.inl hx)
  have hout3 : ∀ x, metaAt c a ≤ x → zero (poke m1 48 a.key) (48 + a.key.length)
      (metaAt c a - (48 + a.key.length)) x = m x := fun x hx => by
    rw [zero_of_notMem (by omega), poke_of_notMem (by omega), hout1 x (by omega)]
  simp only [objKey, show objKeyOffset = 48 from rfl, hl2.objMeta c]
  generalize zero (poke m1 48 a.key) (48 + a.key.length) (metaAt c a - (48 + a.key.length)) = m3
    at hl3 hin3 hout3
  have hmsum3 : Raw.metacrc b m3 = 0 := by
    rw [← hmsum1]
    refine congrArg UInt32.ofNat (field_congr fun x _ hx => ?_)
    rw [hin3 x (by omega), poke_of_notMem (by omega)]
  have hdsum3 : Raw.datacrc b m3 = 0 := by
    rw [← hdsum1]
    refine congrArg UInt32.ofNat (field_congr fun x _ hx => ?_)
    rw [hin3 x (by omega), poke_of_notMem (by omega)]
  have hkey3 : peek m3 48 a.key.length = a.key :=
    (peek_congr fun x _ hx => hin3 x hx).trans (peek_poke_self m1 48 a.key)
  -- the meta data, and zeros up to the data
  obtain ⟨hmsum4, hmeta4, hsame4⟩ := createMeta_spec c b hl3 hmsum3 (by omega) addr
  have hl4 : Lengths b a (createMeta c b a addr m3) := hl3.congr fun x hx => hsame4 x (Or.inl hx)
  generalize createMeta c b a addr m3 = m4 at hmsum4 hmeta4 hsame4 hl4
  rw [hl4.objMeta c, hl4.objData c]
  have hl5 : Lengths b a (zero m4 (metaAt c a + a.metadata.length)
      (dataAt c a - (metaAt c a + a.metadata.length))) := hl4.poke (by omega)
  have hin5 : ∀ x, x < metaAt c a + a.metadata.length → zero m4 (metaAt c a + a.metadata.length)
      (dataAt c a - (metaAt c a + a.metadata.length)) x = m4 x := fun x hx => zero_of_notMem (Or.inl hx)
  have hout5 : ∀ x, dataAt c a ≤ x → zero m4 (metaAt c a + a.metadata.length)
      (dataAt c a - (metaAt c a + a.metadata.length)) x = m x := fun x hx => by
    rw [zero_of_notMem (by omega), hsame4 x (by omega), hout3 x (by omega)]
  generalize zero m4 (metaAt c a + a.metadata.length)
    (dataAt c a - (metaAt c a + a.metadata.length)) = m5 at hl5 hin5 hout5
  have hmsum5 : Raw.metacrc b m5 = metaSum c b a := by
    rw [← hmsum4]
    exact congrArg UInt32.ofNat (field_congr fun x _ hx => hin5 x (by omega))
  have hdsum5 : Raw.datacrc b m5 = 0 := by
    rw [← hdsum3]
    refine congrArg UInt32.ofNat (field_congr fun x hx hx' => ?_)
    rw [hin5 x (by omega), hsame4 x (by omega)]
  have hempty : dataSum c b [] = 0 := by
    unfold dataSum
    rw [edCrc32c_nil, ite_self]
  refine ⟨?_, ⟨hl5, hmsum5, ?_, ?_, rfl, ?_⟩, fun _ => hdsum5.trans hempty.symm⟩
  · simp only [objInit, hl5.objMeta c, hl5.objData c, hl5.key, hl5.metadata, hl5.data, hmsum5, hdsum5,
      hempty]
    rfl
  · refine (peek_congr fun x hx hx' => ?_).trans hkey3
    change 48 ≤ x at hx
    change x < 48 + a.key.length at hx'
    show m5 x = m3 x
    rw [hin5 x (by omega), hsame4 x (by omega)]
  · exact (peek_congr fun x _ hx => hin5 x hx).trans hmeta4
  · exact fun x hx => hout5 x (by omega)

end Create

/-! ## `ed_write` -/

section Write

variable {a : EdObjectAttr} {m m' m0 : Image} {bs buf : List UInt8} {s : Mapped}

theorem Holds.congr (hbs : 0 < c.blockSize) (h : Holds c b a m0 bs m)
    (hm : ∀ x, x < 44 ∨ (48 ≤ x ∧ x < dataAt c a + bs.length) ∨ a.size c ≤ x → m' x = m x) :
    Holds c b a m0 bs m' := by
  obtain ⟨hkey, hmeta, hdata⟩ := layout c hbs a
  change 48 + a.key.length < metaAt c a at hkey
  refine ⟨h.lengths.congr fun x hx => hm x (by omega), ?_, ?_, ?_, ?_, fun x hx => ?_⟩
  · refine (congrArg UInt32.ofNat (field_congr ?_)).trans h.metacrc
    exact fun x _ hx => hm x (by omega)
  · refine (peek_congr fun x hx hx' => hm x ?_).trans h.key
    change 48 ≤ x at hx
    change x < 48 + a.key.length at hx'
    omega
  · exact (peek_congr fun x hx hx' => hm x (by omega)).trans h.metadata
  · exact (peek_congr fun x hx hx' => hm x (by omega)).trans h.data
  · rw [hm x (by omega), h.outside x hx]

theorem Holds.append (hbs : 0 < c.blockSize) (h : Holds c b a m0 bs m)
    (hlen : bs.length + buf.length ≤ a.datalen) :
    Holds c b a m0 (bs ++ buf) (poke m (dataAt c a + bs.length) buf) := by
  obtain ⟨hkey, hmeta, hdata⟩ := layout c hbs a
  change 48 + a.key.length < metaAt c a at hkey
  have hsame : Holds c b a m0 bs (poke m (dataAt c a + bs.length) buf) :=
    h.congr c b hbs fun x hx => poke_of_notMem (by omega)
  refine ⟨hsame.lengths, hsame.metacrc, hsame.key, hsame.metadata, ?_, hsame.outside⟩
  rw [length_append, peek_add, hsame.data, peek_poke_self]

theorem dataSum_append (addr : Nat) :
    (if c.checksum then edCrc32c b addr (dataSum c b bs) buf else dataSum c b bs) =
      dataSum c b (bs ++ buf) := by
  unfold dataSum
  cases c.checksum with
  | true => exact edCrc32c_append b 0 addr 0 0 bs buf
  | false => rfl

theorem edWrite_written (hbs : 0 < c.blockSize) (hs : Sized a) (h : Written c b a m0 bs s)
    (hlen : bs.length + buf.length ≤ a.datalen) (addr : Nat) :
    (edWrite c b addr buf s).1 = .ok buf.length ∧
      Written c b a m0 (bs ++ buf) (edWrite c b addr buf s).2 := by
  obtain ⟨hkey, hmeta, hdata⟩ := layout c hbs a
  change 48 + a.key.length < metaAt c a at hkey
  obtain ⟨o, m⟩ := s
  obtain ⟨ho, hholds, -⟩ := h
  change o = _ at ho
  subst ho
  have hfits : ¬ (buf.length > 2 ^ 32 - 1 ∨ bs.length + buf.length > a.datalen) := by
    have := hs.data
    omega
  have happ := hholds.append c b hbs hlen
  unfold edWrite
  rw [if_neg Bool.false_ne_true, if_neg hfits]
  simp only [objWrite, dataSum_append]
  generalize poke m (dataAt c a + bs.length) buf = m1 at happ
  by_cases hdone : a.datalen = bs.length + buf.length
  · -- the last byte: the checksum goes into the header, and zeros behind the data
    rw [if_pos hdone]
    have hl2 : Lengths b a (setDatacrc b m1 (dataSum c b (bs ++ buf))) := happ.lengths.poke (by decide)
    have hfinal : objHdrFinal c b (setDatacrc b m1 (dataSum c b (bs ++ buf))) (a.size c) =
        zero (setDatacrc b m1 (dataSum c b (bs ++ buf))) (dataAt c a + a.datalen)
          (a.size c - (dataAt c a + a.datalen)) := by
      unfold objHdrFinal
      rw [hl2.objData c, hl2.data]
    rw [hfinal]
    refine ⟨rfl, ?_, happ.congr c b hbs fun x hx => ?_, fun _ => ?_⟩
    · rw [length_append]
    · rw [length_append] at hx
      show zero _ _ _ x = m1 x
      rw [zero_of_notMem (by omega), setDatacrc_of_notMem (by omega)]
    · exact (datacrc_poke (by omega)).trans (field_set m1 44 _)
  · rw [if_neg hdone]
    refine ⟨rfl, ?_, happ, fun hfull => ?_⟩
    · rw [length_append]
    · rw [length_append] at hfull
      exact absurd hfull.symm hdone

theorem edWrite_tooBig (h : Written c b a m0 bs s) (hlen : a.datalen < bs.length + buf.length)
    (addr : Nat) : edWrite c b addr buf s = (.error .eobjectTooBig, s) := by
  unfold edWrite
  rw [h.obj, if_neg Bool.false_ne_true, if_pos (Or.inr hlen)]

theorem writes_written (hbs : 0 < c.blockSize) (hs : Sized a) (ws : List (Nat × List UInt8))
    (h : Written c b a m0 bs s) (hlen : (bs ++ ws.flatMap Prod.snd).length ≤ a.datalen) :
    Written c b a m0 (bs ++ ws.flatMap Prod.snd) (writes c b ws s) := by
  induction ws generalizing bs s with
  | nil =>
    rw [flatMap_nil, append_nil]
    exact h
  | cons w ws ih =>
    rw [flatMap_cons, ← append_assoc] at hlen ⊢
    refine ih (edWrite_written c b hbs hs h ?_ w.1).2 hlen
    simp only [length_append] at hlen
    omega

/-! ## `obj_verify` -/

theorem Written.verified (h : Written c b a m0 bs s) (hfull : bs.length = a.datalen) {o : Obj}
    (ho : o = { s.obj with dataseek := o.dataseek, rdonly := o.rdonly }) (addr : Nat) :
    objVerify c b addr ⟨o, s.img⟩ = none := by
  unfold objVerify
  by_cases hc : c.checksum = true ∧ ¬ c.noverify = true
  · rw [if_pos hc, ho, h.obj]
    simp only [h.holds.metadata]
    rw [← hfull, h.holds.data, if_neg, if_neg]
    · intro hne
      refine hne.2 ?_
      rw [dataSum, if_pos hc.1]
      exact edCrc32c_addr b _ _ _ _
    · intro hne
      refine hne.2 ?_
      rw [metaSum, if_pos ⟨hc.1, fun hnil => hne.1 (congrArg List.length hnil)⟩]
      exact edCrc32c_addr b _ _ _ _
  · rw [if_neg hc]

theorem Written.objInit (h : Written c b a m0 bs s) (hfull : bs.length = a.datalen) :
    objInit c b s.img true = { s.obj with dataseek := 0, rdonly := true } := by
  have hl := h.holds.lengths
  simp only [Raw.objInit, hl.objMeta c, hl.objData c, hl.key, hl.metadata, hl.data, h.holds.metacrc,
    h.datacrc hfull, h.obj]
  rfl

end Write

/-- The object that is created for the attributes `a` and into which the data are written, in any
number of calls, is read back as it was written: key, meta data and data are what the header leads to,
the segments do not overlap and lie inside the region, nothing outside of it is changed, and the
checksums are right for the writer and for every reader. Each of the writes is accepted, and at any
time a write past the end of the data is refused and changes nothing. -/
theorem object_roundTrip (hbs : 0 < c.blockSize) {a : EdObjectAttr} (hs : Sized a) (m0 : Image)
    (now addr : Nat) (ws : List (Nat × List UInt8)) {data : List UInt8}
    (hws : ws.flatMap Prod.snd = data) (hdata : data.length = a.datalen) :
    let s := writes c b ws (edCreate c b a now addr m0)
    (peek s.img (objKey s.img) (keylen b s.img) = a.key ∧
      peek s.img (objMeta c b s.img) (metalen b s.img) = a.metadata ∧
      peek s.img (objData c b s.img) (datalen b s.img) = data) ∧
    (objHdrSize ≤ objKey s.img ∧ objKey s.img + keylen b s.img ≤ objMeta c b s.img ∧
      objMeta c b s.img + metalen b s.img ≤ objData c b s.img ∧
      objData c b s.img + datalen b s.img ≤ s.obj.nbytes ∧
      ∀ x, s.obj.nbytes ≤ x → s.img x = m0 x) ∧
    (∀ pos, objVerify c b pos s = none ∧
      objVerify c b pos ⟨objInit c b s.img true, s.img⟩ = none) ∧
    ∀ before after, ws = before ++ after →
      (∀ w ∈ after.head?, (edWrite c b w.1 w.2
        (writes c b before (edCreate c b a now addr m0))).1 = .ok w.2.length) ∧
      ∀ pos buf, a.datalen < (before.flatMap Prod.snd).length + buf.length →
        edWrite c b pos buf (writes c b before (edCreate c b a now addr m0)) =
          (.error .eobjectTooBig, writes c b before (edCreate c b a now addr m0)) := by
  intro s
  obtain ⟨hkey, hmeta, hend⟩ := layout c hbs a
  have hnew : Written c b a m0 [] (edCreate c b a now addr m0) :=
    edCreate_written c b hbs hs now addr
  have hdone : Written c b a m0 data s := by
    have h := writes_written c b hbs hs ws hnew (by rw [nil_append, hws, hdata])
    rwa [nil_append, hws] at h
  have hl := hdone.holds.lengths
  have hsize : s.obj.nbytes = a.size c := by rw [hdone.obj]
  refine ⟨⟨?_, ?_, ?_⟩, ⟨Nat.le_refl _, ?_, ?_, ?_, ?_⟩, fun pos => ⟨?_, ?_⟩, ?_⟩
  · rw [hl.key]
    exact hdone.holds.key
  · rw [hl.objMeta c, hl.metadata]
    exact hdone.holds.metadata
  · rw [hl.objData c, hl.data, ← hdata]
    exact hdone.holds.data
  · rw [hl.key, hl.objMeta c]
    exact Nat.le_of_lt hkey
  · rw [hl.objMeta c, hl.metadata, hl.objData c]
    exact hmeta
  · rw [hl.objData c, hl.data, hsize]
    exact hend
  · rw [hsize]
    exact hdone.holds.outside
  · exact hdone.verified c b hdata rfl pos
  · exact hdone.verified c b hdata (hdone.objInit c b hdata) pos
  · intro before after hcut
    subst hws hcut
    rw [flatMap_append, length_append] at hdata
    have hpart : Written c b a m0 (before.flatMap Prod.snd)
        (writes c b before (edCreate c b a now addr m0)) := by
      have h := writes_written c b hbs hs before hnew (by rw [nil_append]; omega)
      rwa [nil_append] at h
    refine ⟨fun w hw => ?_, fun pos buf hbig => edWrite_tooBig c b hpart hbig pos⟩
    refine (edWrite_written c b hbs hs hpart ?_ w.1).1
    cases after with
    | nil => cases hw
    | cons w' rest =>
      cases hw
      rw [flatMap_cons, length_append] at hdata
      omega

/-- An object with three bytes of data that are written in two calls. -/
theorem object_roundTrip_two :
    let s := writes sumCfg .sse [(0, [1]), (1, [2, 3])]
      (edCreate sumCfg .sse ⟨[107], [9], 3⟩ 100 0 fun _ => 255)
    peek s.img (objData sumCfg .sse s.img) (datalen .sse s.img) = [1, 2, 3] ∧
      objVerify sumCfg .sse 0 s = none := by
  have h := object_roundTrip sumCfg .sse (by decide) (a := ⟨[107], [9], 3⟩)
    ⟨by decide, by decide, by decide⟩ (fun _ => 255) 100 0 [(0, [1]), (1, [2, 3])] rfl rfl
  exact ⟨h.1.2.2, (h.2.2.1 0).1⟩

/-! ## Objects as the index sees them -/

/-- What a header shows of an object. -/
def decode (m : Image) : EdObjectHdr where
  xid := field b m 0 8
  created := field b m 8 4
  exp := field b m 12 4
  keyhash := UInt64.ofNat (field b m 32 8)
  metacrc := (Raw.metacrc b m).toNat
  datacrc := (Raw.datacrc b m).toNat
  key := peek m (objKey m) (keylen b m)
  metadata := peek m (objMeta c b m) (metalen b m)
  data := peek m (objData c b m) (datalen b m)

theorem peek_ne_nil {m : Image} : peek m off n ≠ [] ↔ n ≠ 0 := by
  rw [ne_eq, ← length_eq_zero_iff, length_peek]

/-- The verification of an object that was just mapped is that of the decoded object. -/
theorem objVerify_decode (hcrc : c.crc = fun bs => (edCrc32c b 0 0 bs).toNat) (m : Image)
    (rdonly : Bool) (addr : Nat) :
    objVerify c b addr ⟨objInit c b m rdonly, m⟩ = Eddy.objVerify c (decode c b m) := by
  have hsum : ∀ (at0 : Nat) (bs : List UInt8) (crc : UInt32),
      edCrc32c b at0 0 bs ≠ crc ↔ c.crc bs ≠ crc.toNat := by
    intro at0 bs crc
    rw [hcrc, ne_eq, ne_eq, UInt32.toNat_inj, edCrc32c_addr b at0 0]
  unfold Raw.objVerify Eddy.objVerify decode Raw.objInit
  simp only [hsum, peek_ne_nil]

end Raw

end Eddy
