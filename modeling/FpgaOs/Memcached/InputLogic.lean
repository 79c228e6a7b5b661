import FpgaOs.Memcached.Hash

/-!
# The words of a request

A request comes as words with a piece of the key, a piece of the value and a piece of the metadata
in each; the first one is marked, and so is the last one. `ht_inputLogic` takes them apart. The
pieces of the key, of 8 bytes each, become words of 16 bytes, for `hash` and for
`concurrencyControl`.

There is one buffer for these words, and it is not cleared between them. So the last word of a key
ends with what was in its place before (`keyPieces`): for a short key the rest of an earlier one,
for a long key its own bytes from one word before.
-/

namespace FpgaOs.Memcached

open BitField Machine

/-! ## The code -/

/-- `struct pipelineWord`. -/
structure PipelineWord where
  metadata : BitVec 124
  sop : Bool
  keyValid : Bool
  valueValid : Bool
  eop : Bool
  value : BitVec 64
  key : BitVec 64
  deriving DecidableEq

/-- `enum ilState`. -/
inductive IlState
  | idle
  | stream
  deriving DecidableEq

/-- The static variables of `ht_inputLogic` that are read. -/
structure InputLogic where
  iState : IlState := .idle
  bufferWord : KeyWord := ⟨0, false⟩
  bufferWordMd : InternalMd := {}
  wordCounter : BitVec 2 := 0
  keyWordCounter : BitVec 2 := 0
  keyLength : BitVec 8 := 0
  deriving DecidableEq

/-- What `ht_inputLogic` writes to its streams. -/
structure Written where
  in2key : List (BitVec 64) := []
  in2value : List (BitVec 64) := []
  in2md : List (BitVec 128) := []
  in2hash : List KeyWord := []
  in2hashKeyLength : List (BitVec 8) := []
  in2cc : List KeyWord := []
  in2ccMd : List InternalMd := []
  deriving DecidableEq

namespace Written

def append (o o' : Written) : Written where
  in2key := o.in2key ++ o'.in2key
  in2value := o.in2value ++ o'.in2value
  in2md := o.in2md ++ o'.in2md
  in2hash := o.in2hash ++ o'.in2hash
  in2hashKeyLength := o.in2hashKeyLength ++ o'.in2hashKeyLength
  in2cc := o.in2cc ++ o'.in2cc
  in2ccMd := o.in2ccMd ++ o'.in2ccMd

theorem append_assoc (o o' o'' : Written) :
    (o.append o').append o'' = o.append (o'.append o'') := by
  simp only [append, List.append_assoc]

end Written

namespace PipelineWord

variable (w : PipelineWord)

def operation : BitVec 8 := slice w.metadata 104 8

/-- The metadata with the marks. -/
def metadataBuffer : BitVec 128 :=
  BitVec.ofBool w.eop ++ BitVec.ofBool w.valueValid ++ BitVec.ofBool w.keyValid ++
    BitVec.ofBool w.sop ++ w.metadata

def values : List (BitVec 64) := if w.valueValid then [w.value] else []

/-- The length of the key; a flush has a key of one byte. -/
def keyLength : BitVec 8 := if w.operation = 8 then 1 else slice w.metadata 0 8

end PipelineWord

namespace InputLogic

variable (s : InputLogic) (inputWord : PipelineWord)

/-- The metadata of the request that begins with this word. -/
def requestMd : InternalMd :=
  { s.bufferWordMd with
    operation := inputWord.operation
    keyLength := inputWord.keyLength
    valueLength := (slice inputWord.metadata 8 32).setWidth 16 }

/-- The word that begins a request, in state `IL_IDLE`. -/
def first : InputLogic × Written :=
  let keyLength := inputWord.keyLength
  let md := s.requestMd inputWord
  let s := { s with
    iState := .stream
    bufferWordMd := md
    wordCounter := 1
    keyWordCounter := 1
    keyLength }
  let o : Written := { in2value := inputWord.values, in2md := [inputWord.metadataBuffer] }
  if 0 < keyLength then
    let o := { o with
      in2key := if inputWord.operation ≠ 8 then [inputWord.key] else []
      in2hashKeyLength := [keyLength] }
    if keyLength ≤ 8 then
      let bufferWord : KeyWord :=
        ⟨setSlice s.bufferWord.data 0 (slice inputWord.key 0 (8 * keyLength.toNat)), true⟩
      ({ s with bufferWord, keyLength := 0 },
        { o with in2cc := [bufferWord], in2ccMd := [md], in2hash := [bufferWord] })
    else
      ({ s with
          bufferWord.data := setSlice s.bufferWord.data 0 inputWord.key
          keyLength := keyLength - 8 }, o)
  else (s, o)

/-- A piece of the key, in state `IL_STREAM`. -/
def piece : InputLogic × Written :=
  let off := 64 * s.keyWordCounter.toNat
  let o : Written := { in2key := [inputWord.key] }
  if s.keyLength ≤ 8 then
    let bufferWord : KeyWord :=
      ⟨setSlice s.bufferWord.data off (slice inputWord.key 0 (8 * s.keyLength.toNat)), true⟩
    ({ s with bufferWord, keyLength := 0 },
      { o with in2cc := [bufferWord], in2ccMd := [s.bufferWordMd], in2hash := [bufferWord] })
  else
    let data := setSlice s.bufferWord.data off inputWord.key
    if s.keyWordCounter = 1 then
      ({ s with bufferWord := ⟨data, false⟩, keyWordCounter := 0, keyLength := s.keyLength - 8 },
        { o with in2cc := [⟨data, false⟩], in2hash := [⟨data, false⟩] })
    else
      ({ s with
          bufferWord.data := data
          keyWordCounter := s.keyWordCounter + 1
          keyLength := s.keyLength - 8 }, o)

/-- A further word, in state `IL_STREAM`. -/
def further : InputLogic × Written :=
  let result := if 0 < s.keyLength then s.piece inputWord else (s, {})
  ({ result.1 with
      iState := if inputWord.eop then .idle else .stream
      wordCounter := if s.wordCounter < 2 then s.wordCounter + 1 else s.wordCounter },
    { result.2 with
      in2value := inputWord.values
      in2md := if s.wordCounter < 2 then [inputWord.metadataBuffer] else [] })

def accept : InputLogic × Written :=
  match s.iState with
  | .idle =>
    if inputWord.sop then s.first inputWord
    else ({ s with bufferWordMd.keyLength := 0, wordCounter := 0, keyWordCounter := 0 }, {})
  | .stream => s.further inputWord

end InputLogic

/-- The streams of `ht_inputLogic` and `hash`. -/
structure FrontStreams extends HashStreams where
  inData : List PipelineWord := []
  in2key : List (BitVec 64) := []
  in2value : List (BitVec 64) := []
  in2md : List (BitVec 128) := []
  in2cc : List KeyWord := []
  in2ccMd : List InternalMd := []
  deriving DecidableEq

def FrontStreams.write (q : FrontStreams) (o : Written) : FrontStreams :=
  { q with
    in2key := q.in2key ++ o.in2key
    in2value := q.in2value ++ o.in2value
    in2md := q.in2md ++ o.in2md
    in2hash := q.in2hash ++ o.in2hash
    in2hashKeyLength := q.in2hashKeyLength ++ o.in2hashKeyLength
    in2cc := q.in2cc ++ o.in2cc
    in2ccMd := q.in2ccMd ++ o.in2ccMd }

namespace FrontStreams

variable (q : FrontStreams)

theorem write_nil : q.write {} = q := by simp only [write, List.append_nil]

theorem write_write (o o' : Written) : (q.write o).write o' = q.write (o.append o') := by
  simp only [write, Written.append, List.append_assoc]

end FrontStreams

def htInputLogic (s : InputLogic) (q : FrontStreams) : InputLogic × FrontStreams :=
  match q.inData with
  | [] => (s, q)
  | inputWord :: inData =>
    ((s.accept inputWord).1, { q with inData }.write (s.accept inputWord).2)

/-! ## The pieces of a key -/

section KeyPieces

variable {d : BitVec 128} {key : List (BitVec 8)}

/-- The bytes of a key in words, the last of which keeps the end of what was there before. -/
def keyPieces (d : BitVec 128) (key : List (BitVec 8)) : List KeyWord :=
  if key.length ≤ 16 then [⟨setBytes d 0 key, true⟩]
  else
    ⟨setBytes d 0 (key.take 16), false⟩ ::
      keyPieces (setBytes d 0 (key.take 16)) (key.drop 16)
termination_by key.length
decreasing_by
  rw [List.length_drop]
  omega

theorem keyPieces_of_le (h : key.length ≤ 16) : keyPieces d key = [⟨setBytes d 0 key, true⟩] := by
  rw [keyPieces, if_pos h]

theorem keyPieces_of_lt (h : 16 < key.length) :
    keyPieces d key = ⟨setBytes d 0 (key.take 16), false⟩ ::
      keyPieces (setBytes d 0 (key.take 16)) (key.drop 16) := by
  rw [keyPieces, if_neg (Nat.not_le.mpr h)]

theorem spells_keyPieces (d : BitVec 128) (hkey : key ≠ []) : Spells key (keyPieces d key) := by
  induction hn : key.length using Nat.strong_induction_on generalizing d key with
  | _ n ih =>
    subst hn
    by_cases hle : key.length ≤ 16
    · rw [keyPieces_of_le hle]
      refine ⟨⟨hkey, length_bytes _ _, ?_, ?_⟩, rfl⟩
      · dsimp only
        rw [bytes_setBytes_zero (m := 16) le_rfl _ hle, List.take_left' rfl,
          List.take_of_length_le hle]
      · exact List.drop_of_length_le hle
    · have hlt := Nat.not_le.mp hle
      have hrest : key.drop 16 ≠ [] := by
        rw [Ne, List.drop_eq_nil_iff]
        exact hle
      have htake : (key.take 16).length = 16 := List.length_take_of_le hlt.le
      have hshort : (key.drop 16).length < key.length := by
        rw [List.length_drop]
        omega
      obtain ⟨hfills, hmarked⟩ := ih _ hshort (setBytes d 0 (key.take 16)) hrest rfl
      rw [keyPieces_of_lt hlt]
      refine ⟨⟨hkey, length_bytes _ _, ?_, hfills⟩,
        marked_cons.mpr (.inr ⟨Bool.false_ne_true, hmarked⟩)⟩
      dsimp only
      rw [bytes_setBytes_zero (m := 16) le_rfl _ htake.le, htake, List.drop_of_length_le
        (length_bytes _ _).le, List.append_nil, List.take_take, Nat.min_eq_right hlt.le]

theorem keyPieces_setBytes {k : ℕ} (hk : k ≤ 16) :
    keyPieces (setBytes d 0 (key.take k)) key = keyPieces d key := by
  by_cases hle : key.length ≤ 16
  · rw [keyPieces_of_le hle, keyPieces_of_le hle, setBytes_setBytes (m := 16) _ hle]
    exact List.length_take_le' ..
  · have hlt := Nat.not_le.mp hle
    rw [keyPieces_of_lt hlt, keyPieces_of_lt hlt, setBytes_setBytes (m := 16)]
    · rw [List.length_take, List.length_take]
      omega
    · exact List.length_take_le ..

/-- The words in which a key is looked up: `memRead` resets what does not belong to a short one. -/
def lookupWords (key : List (BitVec 8)) : List (BitVec 128) := (keyPieces 0 key).map KeyWord.data

/-- The key may have been cut into these words. -/
def CutInto (key : List (BitVec 8)) (ws : List KeyWord) : Prop := ∃ d, keyPieces d key = ws

theorem CutInto.spells {ws : List KeyWord} (h : CutInto key ws) (hkey : key ≠ []) :
    Spells key ws := by
  obtain ⟨d, rfl⟩ := h
  exact spells_keyPieces d hkey

theorem keyPieces_congr (h : 16 < key.length) (d d' : BitVec 128) :
    keyPieces d key = keyPieces d' key := by
  have hlen : (key.take 16).length = 16 := List.length_take_of_le h.le
  have hset : setBytes d 0 (key.take 16) = setBytes d' 0 (key.take 16) := by
    apply bytes_injective 16
    rw [bytes_setBytes_zero (m := 16) le_rfl d hlen.le,
      bytes_setBytes_zero (m := 16) le_rfl d' hlen.le, hlen,
      List.drop_of_length_le (length_bytes 16 d).le,
      List.drop_of_length_le (length_bytes 16 d').le]
  rw [keyPieces_of_lt h, keyPieces_of_lt h, hset]

variable {k : BitVec 64} {o : ℕ}

theorem setSlice_last (ho : o + key.length ≤ 16) (hle : key.length ≤ 8)
    (hk : Agree (bytes 8 k) key) :
    setSlice d (8 * o) (slice k 0 (8 * key.length)) = setBytes d o key := by
  have htake : bytes key.length (slice k (8 * 0) (8 * key.length)) = key := by
    rw [bytes_slice (m := 8) (by omega), List.drop_zero, agree_iff.mp hk, length_bytes,
      List.take_of_length_le hle]
  exact (setSlice_eq_setBytes (m := 16) ho _).trans (by rw [htake])

theorem setSlice_more (ho : o + 8 ≤ 16) (hlt : 8 < key.length) (hk : Agree (bytes 8 k) key) :
    setSlice d (8 * o) k = setBytes d o (key.take 8) := by
  have htake : bytes 8 k = key.take 8 := by
    have hagree := agree_iff.mp hk
    rwa [length_bytes, List.take_of_length_le] at hagree
    exact (length_bytes 8 k).trans_le hlt.le
  rw [← htake]
  exact setSlice_eq_setBytes (m := 16) ho k

end KeyPieces

/-! ## A request -/

namespace InputLogic

variable (s : InputLogic)

/-- The key goes on with these bytes. -/
structure Awaits (key : List (BitVec 8)) : Prop where
  length : s.keyLength = .ofNat 8 key.length
  bound : key.length < 256
  counter : s.keyWordCounter = 0 ∨ s.keyWordCounter = 1

/-- The words that are written for the rest of a key. -/
def toCome (key : List (BitVec 8)) : List KeyWord :=
  if key = [] then []
  else keyPieces s.bufferWord.data
    ((bytes 16 s.bufferWord.data).take (8 * s.keyWordCounter.toNat) ++ key)

variable {s} {key : List (BitVec 8)} {w : PipelineWord}

theorem toCome_nil (s : InputLogic) : s.toCome [] = [] := if_pos rfl

theorem toCome_zero (hkey : key ≠ []) (hc : s.keyWordCounter = 0) :
    s.toCome key = keyPieces s.bufferWord.data key := by
  rw [toCome, if_neg hkey, hc]
  rfl

theorem toCome_one (hkey : key ≠ []) (hc : s.keyWordCounter = 1) :
    s.toCome key
      = keyPieces s.bufferWord.data ((bytes 16 s.bufferWord.data).take 8 ++ key) := by
  rw [toCome, if_neg hkey, hc]
  rfl

theorem toCome_of_le {c : ℕ} (hc : s.keyWordCounter.toNat = c) (hle : c ≤ 1) (hkey : key ≠ [])
    (hlen : key.length ≤ 8) :
    s.toCome key = [⟨setBytes s.bufferWord.data (8 * c) key, true⟩] := by
  have htake : ((bytes 16 s.bufferWord.data).take (8 * c)).length = 8 * c := by
    rw [List.length_take, length_bytes]
    omega
  rw [toCome, if_neg hkey, hc, keyPieces_of_le, setBytes_take_append (m := 16) (by omega)]
  rw [List.length_append, htake]
  omega

theorem keyPieces_lower {d : BitVec 128} (hlt : 8 < key.length) :
    keyPieces (setBytes d 0 (key.take 8))
      ((bytes 16 (setBytes d 0 (key.take 8))).take 8 ++ key.drop 8) = keyPieces d key := by
  have hlen : (key.take 8).length = 8 := List.length_take_of_le hlt.le
  rw [bytes_setBytes_zero (m := 16) le_rfl _ (by omega), List.take_left' hlen,
    List.take_append_drop, keyPieces_setBytes (by decide)]

theorem keyPieces_upper {d : BitVec 128} (hlt : 8 < key.length) :
    keyPieces d ((bytes 16 d).take 8 ++ key)
      = ⟨setBytes d 8 (key.take 8), false⟩ :: keyPieces (setBytes d 8 (key.take 8))
          (key.drop 8) := by
  have hlow : ((bytes 16 d).take 8).length = 8 := by rw [List.length_take, length_bytes]; rfl
  have hlen : (key.take 8).length = 8 := List.length_take_of_le hlt.le
  have hset : setBytes d 0 ((bytes 16 d).take 8 ++ key.take 8) = setBytes d 8 (key.take 8) :=
    setBytes_take_append (m := 16) (by omega)
  rw [keyPieces_of_lt (by rw [List.length_append, hlow]; omega), List.take_append, hlow,
    List.take_take, List.drop_append, hlow, List.drop_of_length_le (by omega), List.nil_append]
  exact congrArg (fun d ↦ (⟨d, false⟩ : KeyWord) :: keyPieces d (key.drop 8)) hset

theorem Awaits.piece (h : s.Awaits key) (hkey : key ≠ []) (hw : Agree (bytes 8 w.key) key) :
    ∃ t ws, s.piece w = (t, {
        in2key := [w.key]
        in2hash := ws
        in2cc := ws
        in2ccMd := if key.length ≤ 8 then [s.bufferWordMd] else [] })
      ∧ t.Awaits (key.drop 8) ∧ ws ++ t.toCome (key.drop 8) = s.toCome key
      ∧ t.bufferWordMd = s.bufferWordMd := by
  obtain ⟨iState, ⟨d, eop⟩, md, wordCounter, c, keyLength⟩ := s
  obtain ⟨rfl, hbound, hc⟩ := h
  dsimp only at hbound hc
  have hlen : (BitVec.ofNat 8 key.length).toNat = key.length := by
    rw [BitVec.toNat_ofNat]
    exact Nat.mod_eq_of_lt hbound
  have hsmall : BitVec.ofNat 8 key.length ≤ 8 ↔ key.length ≤ 8 := by rw [BitVec.le_def, hlen]; rfl
  have hoff : 64 * c.toNat = 8 * (8 * c.toNat) := by omega
  have hcount : c.toNat ≤ 1 := hc.elim (fun h ↦ h ▸ by decide) fun h ↦ h ▸ by decide
  have hdrop : (key.drop 8).length = key.length - 8 := List.length_drop
  rw [InputLogic.piece]
  dsimp only
  by_cases hle : key.length ≤ 8
  · have hnone : key.drop 8 = [] := List.drop_of_length_le hle
    rw [if_pos (hsmall.mpr hle), if_pos hle, hlen, hoff,
      setSlice_last (by omega) hle hw, hnone]
    refine ⟨_, _, rfl, ⟨rfl, by decide, hc⟩, ?_, rfl⟩
    rw [toCome_nil, List.append_nil, toCome_of_le rfl hcount hkey hle]
  · have hlt := Nat.not_le.mp hle
    have hrest : key.drop 8 ≠ [] := List.ne_nil_of_length_pos (by omega)
    have hlength : BitVec.ofNat 8 key.length - 8 = .ofNat 8 (key.drop 8).length := by
      rw [hdrop]
      exact ofNat_sub hlt.le
    rw [if_neg (mt hsmall.mp hle), if_neg hle, hoff,
      setSlice_more (by omega) hlt hw, hlength]
    rcases hc with rfl | rfl
    · refine ⟨_, [], rfl, ⟨rfl, by omega, .inr rfl⟩, ?_, rfl⟩
      rw [List.nil_append, toCome_zero hkey rfl, toCome_one hrest rfl]
      exact keyPieces_lower hlt
    · refine ⟨_, _, rfl, ⟨rfl, by omega, .inl rfl⟩, ?_, rfl⟩
      rw [toCome_one hkey rfl, toCome_zero hrest rfl]
      exact (keyPieces_upper hlt).symm

theorem exists_first (hkey : key ≠ []) (hlength : w.keyLength = .ofNat 8 key.length)
    (hbound : key.length < 256) (hw : Agree (bytes 8 w.key) key) :
    ∃ t ws, s.first w = (t, {
        in2key := if w.operation ≠ 8 then [w.key] else []
        in2value := w.values
        in2md := [w.metadataBuffer]
        in2hash := ws
        in2hashKeyLength := [w.keyLength]
        in2cc := ws
        in2ccMd := if key.length ≤ 8 then [s.requestMd w] else [] })
      ∧ t.iState = .stream ∧ t.wordCounter = 1 ∧ t.bufferWordMd = s.requestMd w
      ∧ t.Awaits (key.drop 8)
      ∧ ws ++ t.toCome (key.drop 8) = keyPieces s.bufferWord.data key := by
  have hlen : (BitVec.ofNat 8 key.length).toNat = key.length := by
    rw [BitVec.toNat_ofNat]
    exact Nat.mod_eq_of_lt hbound
  have hpos : 0 < BitVec.ofNat 8 key.length :=
    (ofNat_lt (k := 0) (by decide) hbound).mpr (List.length_pos_iff.mpr hkey)
  have hsmall : BitVec.ofNat 8 key.length ≤ 8 ↔ key.length ≤ 8 := by rw [BitVec.le_def, hlen]; rfl
  have hdrop : (key.drop 8).length = key.length - 8 := List.length_drop
  rw [first]
  dsimp only
  rw [hlength, if_pos hpos]
  by_cases hle : key.length ≤ 8
  · have hnone : key.drop 8 = [] := List.drop_of_length_le hle
    rw [if_pos (hsmall.mpr hle), if_pos hle, hlen, hnone]
    refine ⟨_, _, rfl, rfl, rfl, rfl, ⟨rfl, by decide, .inr rfl⟩, ?_⟩
    rw [toCome_nil, List.append_nil, keyPieces_of_le (hle.trans (by decide))]
    exact congrArg (fun d ↦ [(⟨d, true⟩ : KeyWord)]) (setSlice_last (o := 0) (by omega) hle hw)
  · have hlt := Nat.not_le.mp hle
    have hrest : key.drop 8 ≠ [] := List.ne_nil_of_length_pos (by omega)
    have hmore : BitVec.ofNat 8 key.length - 8 = .ofNat 8 (key.drop 8).length := by
      rw [hdrop]
      exact ofNat_sub hlt.le
    rw [if_neg (mt hsmall.mp hle), if_neg hle, hmore]
    refine ⟨_, [], rfl, rfl, rfl, rfl, ⟨rfl, by omega, .inr rfl⟩, ?_⟩
    have hset : setSlice s.bufferWord.data 0 w.key = setBytes s.bufferWord.data 0 (key.take 8) :=
      setSlice_more (o := 0) (by decide) hlt hw
    rw [List.nil_append, toCome_one hrest rfl]
    dsimp only
    rw [hset]
    exact keyPieces_lower hlt

theorem exists_further (hstate : s.iState = .stream) (h : s.Awaits key)
    (hw : Agree (bytes 8 w.key) key) :
    ∃ t ws mds, s.accept w = (t, {
        in2key := if key = [] then [] else [w.key]
        in2value := w.values
        in2md := if s.wordCounter < 2 then [w.metadataBuffer] else []
        in2hash := ws
        in2cc := ws
        in2ccMd := mds })
      ∧ t.iState = (if w.eop then .idle else .stream)
      ∧ t.wordCounter = (if s.wordCounter < 2 then s.wordCounter + 1 else s.wordCounter)
      ∧ t.bufferWordMd = s.bufferWordMd ∧ t.Awaits (key.drop 8)
      ∧ ws ++ t.toCome (key.drop 8) = s.toCome key
      ∧ mds ++ (if key.drop 8 = [] then [] else [s.bufferWordMd])
        = if key = [] then [] else [s.bufferWordMd] := by
  rw [accept, hstate]
  dsimp only
  rw [further]
  by_cases hkey : key = []
  · subst hkey
    have hzero : ¬0 < s.keyLength := by
      rw [h.length]
      decide
    rw [if_neg hzero]
    exact ⟨_, _, _, rfl, rfl, rfl, rfl, ⟨h.length, h.bound, h.counter⟩, rfl, rfl⟩
  · obtain ⟨t, ws, heq, ht, hws, hmd⟩ := h.piece hkey hw
    have hpos : 0 < s.keyLength := by
      rw [h.length]
      exact (ofNat_lt (k := 0) (by decide) h.bound).mpr (List.length_pos_iff.mpr hkey)
    rw [if_pos hpos, heq, if_neg hkey]
    refine ⟨_, _, _, rfl, rfl, rfl, hmd, ⟨ht.length, ht.bound, ht.counter⟩, hws, ?_⟩
    dsimp only
    by_cases hle : key.length ≤ 8
    · rw [if_pos hle, if_pos (List.drop_of_length_le hle), if_neg hkey]
      rfl
    · rw [if_neg hle, if_neg (mt List.drop_eq_nil_iff.mp hle), if_neg hkey]
      rfl

/-- Several words. -/
def acceptAll : InputLogic → List PipelineWord → InputLogic × Written
  | s, [] => (s, {})
  | s, w :: ws =>
    ((acceptAll (s.accept w).1 ws).1, (s.accept w).2.append (acceptAll (s.accept w).1 ws).2)

theorem exists_acceptAll {ws : List PipelineWord}
    (hmarked : Marked (fun w : PipelineWord ↦ w.eop = true) ws) (hstate : s.iState = .stream)
    (hcount : s.wordCounter = 1 ∨ s.wordCounter = 2) (h : s.Awaits key)
    (hlen : key.length ≤ 8 * ws.length) (hws : Agree (ws.flatMap fun w ↦ bytes 8 w.key) key) :
    ∃ t, s.acceptAll ws = (t, {
        in2key := (ws.map PipelineWord.key).take ((key.length + 7) / 8)
        in2value := ws.flatMap PipelineWord.values
        in2md := (ws.take (2 - s.wordCounter.toNat)).map PipelineWord.metadataBuffer
        in2hash := s.toCome key
        in2cc := s.toCome key
        in2ccMd := if key = [] then [] else [s.bufferWordMd] })
      ∧ t.iState = .idle ∧ t.bufferWordMd = s.bufferWordMd := by
  induction ws generalizing s key with
  | nil => exact absurd rfl hmarked.ne_nil
  | cons w ws ih =>
    rw [List.flatMap_cons] at hws
    rw [List.length_cons] at hlen
    have hdrop : (key.drop 8).length = key.length - 8 := List.length_drop
    obtain ⟨t, ks, mds, heq, hidle, hwc, hmd, hawaits, hks, hmds⟩ :=
      exists_further hstate h hws.of_append
    -- what the words after this one give
    obtain ⟨u, hu, huidle, humd⟩ : ∃ u, t.acceptAll ws = (u, {
        in2key := (ws.map PipelineWord.key).take (((key.drop 8).length + 7) / 8)
        in2value := ws.flatMap PipelineWord.values
        in2md := (ws.take (2 - t.wordCounter.toNat)).map PipelineWord.metadataBuffer
        in2hash := t.toCome (key.drop 8)
        in2cc := t.toCome (key.drop 8)
        in2ccMd := if key.drop 8 = [] then [] else [t.bufferWordMd] })
        ∧ u.iState = .idle ∧ u.bufferWordMd = t.bufferWordMd := by
      obtain ⟨rfl, hlast⟩ | ⟨hlast, hmarked⟩ := marked_cons.mp hmarked
      · have hnone : key.drop 8 = [] := List.drop_of_length_le hlen
        rw [if_pos hlast] at hidle
        refine ⟨t, ?_, hidle, rfl⟩
        rw [hnone, toCome_nil, List.take_nil]
        rfl
      · rw [if_neg hlast] at hidle
        refine ih hmarked hidle (.inr ?_) hawaits (by omega) (hws.append_right (length_bytes ..))
        rcases hcount with hone | htwo
        · rw [hwc, hone]
          rfl
        · rw [hwc, htwo]
          rfl
    refine ⟨u, ?_, huidle, humd.trans hmd⟩
    rw [acceptAll, heq]
    dsimp only
    rw [hu, Written.append, hmd]
    dsimp only
    rw [hks, hmds, List.nil_append, Prod.mk.injEq, Written.mk.injEq]
    refine ⟨rfl, ?_, List.flatMap_cons, ?_, rfl, rfl, rfl, rfl⟩
    · rw [List.map_cons]
      by_cases hkey : key = []
      · subst hkey
        rfl
      · have hpos := List.length_pos_iff.mpr hkey
        rw [if_neg hkey, show (key.length + 7) / 8 = ((key.drop 8).length + 7) / 8 + 1 by omega]
        rfl
    · rcases hcount with hone | htwo
      · rw [hwc, hone]
        rfl
      · rw [hwc, htwo]
        rfl

end InputLogic

/-! ## Requests -/

/-- A request: the first word is marked as such, and so is the last one, and there are as many bytes
of the key as the first word says. -/
structure RequestPacket where
  first : PipelineWord
  rest : List PipelineWord
  sop : first.sop = true
  marked : Marked (fun w : PipelineWord ↦ w.eop = true) rest
  keyLength_ne : first.keyLength ≠ 0
  complete : first.keyLength.toNat ≤ 8 * (rest.length + 1)

namespace RequestPacket

variable (p : RequestPacket)

def words : List PipelineWord := p.first :: p.rest

def keyBytes : List (BitVec 8) := p.words.flatMap fun w ↦ bytes 8 w.key

def key : List (BitVec 8) := p.keyBytes.take p.first.keyLength.toNat

/-- The metadata as `concurrencyControl` gets it. -/
def md : InternalMd where
  operation := p.first.operation
  keyLength := p.first.keyLength
  valueLength := (slice p.first.metadata 8 32).setWidth 16

/-- What is written for a request whose key becomes the words `ws`. -/
def written (ws : List KeyWord) : Written where
  in2key := (if p.first.operation ≠ 8 then [p.first.key] else [])
    ++ (p.rest.map PipelineWord.key).take (((p.key.drop 8).length + 7) / 8)
  in2value := p.words.flatMap PipelineWord.values
  in2md := p.first.metadataBuffer :: (p.rest.take 1).map PipelineWord.metadataBuffer
  in2hash := ws
  in2hashKeyLength := [p.first.keyLength]
  in2cc := ws
  in2ccMd := [p.md]

theorem length_keyBytes : p.keyBytes.length = 8 * (p.rest.length + 1) := by
  rw [keyBytes, List.length_flatMap, List.map_congr_left fun w _ ↦ length_bytes 8 w.key,
    List.map_const', List.sum_replicate_nat, Nat.mul_comm]
  rfl

theorem length_key : p.key.length = p.first.keyLength.toNat := by
  rw [key, List.length_take, p.length_keyBytes]
  exact Nat.min_eq_left p.complete

theorem isKey : IsKey p.key := by
  refine ⟨fun hkey ↦ ?_, p.length_key ▸ p.first.keyLength.isLt⟩
  have hlen := p.length_key
  rw [hkey] at hlen
  exact p.keyLength_ne (BitVec.eq_of_toNat_eq hlen.symm)

theorem keyLength_eq : p.first.keyLength = .ofNat 8 p.key.length := by
  rw [p.length_key, BitVec.ofNat_toNat, BitVec.setWidth_eq]

end RequestPacket

namespace InputLogic

variable {s : InputLogic}

/-- The state between two requests. -/
structure Between (s : InputLogic) : Prop where
  state : s.iState = .idle
  metadata : s.bufferWordMd.metadata = 0

/-- **A request.** -/
theorem Between.exists_request (h : s.Between) (p : RequestPacket) :
    ∃ t ws, s.acceptAll p.words = (t, p.written ws) ∧ t.Between ∧ CutInto p.key ws := by
  have hagree : Agree (bytes 8 p.first.key ++ p.rest.flatMap fun w ↦ bytes 8 w.key) p.key :=
    agree_take p.keyBytes _
  obtain ⟨t, ks, heq, hstate, hcount, hmd, hawaits, hks⟩ :=
    @exists_first s _ _ p.isKey.ne_nil p.keyLength_eq p.isKey.length_lt hagree.of_append
  have hlen : (p.key.drop 8).length ≤ 8 * p.rest.length := by
    have hle := p.length_key.trans_le p.complete
    rw [List.length_drop]
    omega
  obtain ⟨u, hu, hidle, humd⟩ := exists_acceptAll p.marked hstate (.inl hcount) hawaits hlen
    (hagree.append_right (length_bytes ..))
  have hrequest : s.requestMd p.first = p.md := by
    rw [requestMd, h.metadata]
    rfl
  rw [hrequest] at hmd
  refine ⟨u, ks ++ t.toCome (p.key.drop 8), ?_, ⟨hidle, ?_⟩, ?_⟩
  · have haccept : s.accept p.first = s.first p.first := by
      rw [accept, h.state]
      exact if_pos p.sop
    rw [RequestPacket.words, acceptAll, haccept, heq]
    dsimp only
    rw [hu, hrequest, hmd, hcount, Written.append, RequestPacket.written, Prod.mk.injEq,
      Written.mk.injEq]
    refine ⟨rfl, rfl, rfl, rfl, rfl, rfl, rfl, ?_⟩
    dsimp only
    by_cases hle : p.key.length ≤ 8
    · rw [if_pos hle, if_pos (List.drop_of_length_le hle)]
      rfl
    · rw [if_neg hle, if_neg (mt List.drop_eq_nil_iff.mp hle)]
      rfl
  · rw [humd, hmd]
    rfl
  · exact ⟨_, hks.symm⟩

theorem acceptAll_append (s : InputLogic) (ws ws' : List PipelineWord) :
    s.acceptAll (ws ++ ws') = (((s.acceptAll ws).1.acceptAll ws').1,
      (s.acceptAll ws).2.append ((s.acceptAll ws).1.acceptAll ws').2) := by
  induction ws generalizing s with
  | nil => rfl
  | cons w ws ih => rw [List.cons_append, acceptAll, ih, acceptAll, Written.append_assoc]

/-- **Requests.** The words of a key are the same for `hash` and for `concurrencyControl`. -/
theorem Between.exists_requests (h : s.Between) (ps : List RequestPacket) :
    ∃ t o wss, s.acceptAll (ps.flatMap RequestPacket.words) = (t, o)
      ∧ List.Forall₂ (fun p ws ↦ CutInto p.key ws) ps wss
      ∧ o.in2hash = wss.flatten ∧ o.in2cc = wss.flatten
      ∧ o.in2hashKeyLength = ps.map (fun p ↦ p.first.keyLength)
      ∧ o.in2ccMd = ps.map RequestPacket.md := by
  induction ps generalizing s with
  | nil => exact ⟨s, {}, [], rfl, .nil, rfl, rfl, rfl, rfl⟩
  | cons p ps ih =>
    obtain ⟨t, ws, heq, hbetween, hcut⟩ := h.exists_request p
    obtain ⟨u, o, wss, heq', hall, hhash, hcc, hlengths, hmds⟩ := ih hbetween
    refine ⟨u, (p.written ws).append o, ws :: wss, ?_, .cons hcut hall, ?_, ?_, ?_, ?_⟩
    · rw [List.flatMap_cons, acceptAll_append, heq]
      dsimp only
      rw [heq']
    · exact congrArg (ws ++ ·) hhash
    · exact congrArg (ws ++ ·) hcc
    · exact congrArg (p.first.keyLength :: ·) hlengths
    · exact congrArg (p.md :: ·) hmds

end InputLogic

end FpgaOs.Memcached
