import InferFlux.Http.CompletionPayload
import Mathlib.Data.Nat.Digits.Defs

/-!
# Safetensors files

Embeds `SafetensorsParser::Parse` from `runtime/backends/cuda/native/safetensors_parser.cpp`:
the length of the metadata, the metadata with the offsets of the tensors, and the check of the
offsets against the size of the file. All sizes are 64-bit words, and addresses are relative
to the start of the mapping.

What the JSON library makes of a text is given by an environment; any of its exceptions makes
the parser fail. The comparison of sizes that is only logged is left out.
-/

namespace InferFlux.Backends

open InferFlux.Text InferFlux.Http Option

/-- A file; its size is a signed 64-bit number. -/
structure File where
  content : Bytes
  length_lt : content.length < 2 ^ 63

def File.size (file : File) : UInt64 := UInt64.ofNat file.content.length

structure SafetensorsEnv where
  /-- `json::parse`, unless it throws. -/
  parse : Bytes → Option Json
  /-- The conversion of a floating point number to `size_t`. -/
  floatToSize : ℚ → UInt64
  /-- What `offset` and `byte_size` are before they are set. -/
  unset : Bytes → UInt64 × UInt64

structure TensorInfo where
  name : Bytes
  shape : List UInt64
  dtype : Bytes
  /-- The offsets that the file gives; the parser keeps the first and the difference. -/
  dataOffsets : Option (UInt64 × UInt64)
  offset : UInt64
  byteSize : UInt64
  dataPtr : UInt64 := 0
  kept : ∀ s e, dataOffsets = some (s, e) → offset = s ∧ byteSize = e - s

/-- A tensor with offsets, or with what is in its members. -/
def TensorInfo.ofOffsets (name : Bytes) (shape : List UInt64) (dtype : Bytes)
    (unset : UInt64 × UInt64) : Option (UInt64 × UInt64) → TensorInfo
  | some (s, e) =>
    { name, shape, dtype
      dataOffsets := some (s, e)
      offset := s
      byteSize := e - s
      kept := by simp }
  | none =>
    { name, shape, dtype
      dataOffsets := none
      offset := unset.1
      byteSize := unset.2
      kept := by simp }

def littleEndian (b : Bytes) : UInt64 :=
  UInt64.ofNat (Nat.ofDigits 256 (b.map UInt8.toNat))

def metadataLen (file : File) : UInt64 := littleEndian (file.content.take 8)

def parseHeader (file : File) : Bool :=
  !(file.size < 8) && !(metadataLen file > 100 * 1024 * 1024) && !(metadataLen file + 8 > file.size)

section Metadata

variable (env : SafetensorsEnv)

/-- `get<size_t>()`; other values throw. -/
def getSize : Json → Option UInt64
  | .integer n => some (UInt64.ofInt n)
  | .float q => some (env.floatToSize q)
  | _ => none

def items : Json → List (Bytes × Json)
  | .object fields => fields
  | .array elements => elements.mapIdx fun i element => (bytes (toString i), element)
  | .null => []
  | value => [([], value)]

def readShape (tensorData : Json) : Option (List UInt64) :=
  match tensorData.find "shape" with
  | some (.array dims) => dims.mapM (getSize env)
  | _ => some []

def readDtype (tensorData : Json) : Option Bytes :=
  match tensorData.find "dtype" with
  | some (.string dtype) => some dtype
  | some _ => none
  | none => some []

def readOffsets (tensorData : Json) : Option (Option (UInt64 × UInt64)) :=
  match tensorData.find "data_offsets" with
  | some (.array (s :: e :: _)) => do
    let s ← getSize env s
    let e ← getSize env e
    pure (some (s, e))
  | _ => some none

def readTensor (name : Bytes) (tensorData : Json) : Option TensorInfo := do
  let shape ← readShape env tensorData
  let dtype ← readDtype tensorData
  let offsets ← readOffsets env tensorData
  pure (.ofOffsets name shape dtype (env.unset name) offsets)

def assign (tensors : List TensorInfo) (info : TensorInfo) : List TensorInfo :=
  tensors.filter (·.name ≠ info.name) ++ [info]

/-- One entry of the metadata; keys that start with two underscores are no tensors. -/
def parseEntry (tensors : List TensorInfo) (entry : Bytes × Json) : Option (List TensorInfo) :=
  match entry with
  | (name, .object fields) =>
    if name.take 2 = bytes "__" then some tensors
    else (readTensor env name (.object fields)).map (assign tensors)
  | _ => some tensors

def parseMetadata (file : File) : Option (List TensorInfo) :=
  if 8 + metadataLen file > file.size then none
  else do
    let metadata ← env.parse ((file.content.drop 8).take (metadataLen file).toNat)
    (items metadata).foldlM (parseEntry env) []

/-- Where the tensors start: behind the metadata, aligned to 8 bytes. -/
def dataStart (file : File) : UInt64 := (8 + metadataLen file + 7) &&& ~~~7

def locate (file : File) (info : TensorInfo) : Option TensorInfo :=
  if dataStart file + info.offset + info.byteSize > file.size then none
  else some { info with dataPtr := dataStart file + info.offset }

def parseTensorData (file : File) (tensors : List TensorInfo) : Option (List TensorInfo) :=
  tensors.mapM (locate file)

/-- The tensors of the file, if `Parse` returns true. -/
def parse (file : File) : Option (List TensorInfo) :=
  if parseHeader file then (parseMetadata env file).bind (parseTensorData file) else none

end Metadata

/-- The bytes that the file gives to a tensor are bytes of the file, and so are those that its
pointer and its size give. -/
def InFile (file : File) (info : TensorInfo) : Prop :=
  ∀ s e, info.dataOffsets = some (s, e) →
    s ≤ e ∧ (dataStart file).toNat + e.toNat ≤ file.content.length ∧
      info.dataPtr.toNat + info.byteSize.toNat ≤ file.content.length

/-- The offsets are in order, and their sum with the start of the tensors is a 64-bit word. -/
def InOrder (file : File) (info : TensorInfo) : Prop :=
  ∀ s e, info.dataOffsets = some (s, e) → s ≤ e ∧ (dataStart file).toNat + e.toNat < 2 ^ 64

theorem File.size_toNat (file : File) : file.size.toNat = file.content.length := by
  have := file.length_lt
  rw [File.size, UInt64.toNat_ofNat']
  omega

variable {file : File} {info : TensorInfo} {located : TensorInfo}

/-- The check compares the end of the tensor with the size, modulo 2 ^ 64. -/
theorem locate_eq_some (h : locate file info = some located) :
    located = { info with dataPtr := dataStart file + info.offset } ∧
      ∀ s e, info.dataOffsets = some (s, e) →
        ((dataStart file).toNat + e.toNat) % 2 ^ 64 ≤ file.content.length := by
  rw [locate] at h
  split_ifs at h with hcheck
  refine ⟨(some.inj h).symm, ?_⟩
  intro s e hoffsets
  obtain ⟨hs, he⟩ := info.kept s e hoffsets
  have hend : dataStart file + info.offset + info.byteSize = dataStart file + e := by
    grind
  have hle : dataStart file + e ≤ file.size := by
    rw [hend] at hcheck
    exact UInt64.not_lt.mp hcheck
  rw [UInt64.le_iff_toNat_le, UInt64.toNat_add, file.size_toNat] at hle
  exact hle

theorem inFile_iff_inOrder (h : locate file info = some located) :
    InFile file located ↔ InOrder file located := by
  have hlt := file.length_lt
  obtain ⟨rfl, hcheck⟩ := locate_eq_some h
  constructor
  · intro hin s e hoffsets
    obtain ⟨hle, hend, _⟩ := hin s e hoffsets
    exact ⟨hle, by omega⟩
  · intro hin s e hoffsets
    obtain ⟨hle, hend⟩ := hin s e hoffsets
    have hsize := hcheck s e hoffsets
    obtain ⟨hs, he⟩ := info.kept s e hoffsets
    rw [Nat.mod_eq_of_lt hend] at hsize
    refine ⟨hle, hsize, ?_⟩
    have hsub := UInt64.toNat_sub_of_le e s hle
    rw [UInt64.le_iff_toNat_le] at hle
    simp only [hs, he, UInt64.toNat_add, hsub]
    omega

theorem mem_parseTensorData {tensors located : List TensorInfo}
    (h : parseTensorData file tensors = some located) (hmem : info ∈ located) :
    ∃ parsed ∈ tensors, locate file parsed = some info := by
  induction tensors generalizing located with
  | nil =>
    obtain rfl : [] = located := by simpa [parseTensorData] using h
    cases hmem
  | cons tensor tensors ih =>
    rw [parseTensorData, List.mapM_cons] at h
    obtain ⟨first, hfirst, h⟩ := bind_eq_some_iff.mp h
    obtain ⟨rest, hrest, h⟩ := bind_eq_some_iff.mp h
    obtain rfl := some.inj h
    obtain rfl | hmem := List.mem_cons.mp hmem
    · exact ⟨tensor, List.mem_cons_self, hfirst⟩
    · obtain ⟨parsed, hparsed, hlocate⟩ := ih hrest hmem
      exact ⟨parsed, List.mem_cons_of_mem _ hparsed, hlocate⟩

/-- In every file that the parser accepts, the tensors lie in the file exactly if their offsets
are in order and do not exceed the 64-bit words. -/
theorem parse_inFile_iff (env : SafetensorsEnv) (file : File) (tensors : List TensorInfo)
    (h : parse env file = some tensors) :
    (∀ info ∈ tensors, InFile file info) ↔ ∀ info ∈ tensors, InOrder file info := by
  rw [parse] at h
  split_ifs at h
  obtain ⟨parsed, _, hlocated⟩ := Option.bind_eq_some_iff.mp h
  refine forall₂_congr fun info hmem => ?_
  obtain ⟨_, _, hlocate⟩ := mem_parseTensorData hlocated hmem
  exact inFile_iff_inOrder hlocate

/-- A library that knows one document: a tensor `w` of 8 bytes at some offsets. -/
def wLibrary (text : Bytes) (s e : Int) : SafetensorsEnv where
  parse t := if t = text then some (.object [(bytes "w", .object [
    (bytes "shape", .array [.integer 8]), (bytes "dtype", .string (bytes "U8")),
    (bytes "data_offsets", .array [.integer s, .integer e])])]) else none
  floatToSize _ := 0
  unset _ := (0, 0)

def wInside : Bytes :=
  bytes "\x7b\"w\":\x7b\"shape\":[8],\"dtype\":\"U8\",\"data_offsets\":[0,8]\x7d\x7d   "

def wReversed : Bytes :=
  bytes "\x7b\"w\":\x7b\"shape\":[8],\"dtype\":\"U8\",\"data_offsets\":[8,0]\x7d\x7d   "

def insideFile : File where
  content := 56 :: List.replicate 7 0 ++ wInside ++ List.replicate 8 0
  length_lt := by decide

def reversedFile : File where
  content := 56 :: List.replicate 7 0 ++ wReversed
  length_lt := by decide

theorem parse_inFile_inside :
    ∃ tensors, parse (wLibrary wInside 0 8) insideFile = some tensors ∧
      ∀ info ∈ tensors, InFile insideFile info := by
  have hoffsets : (parse (wLibrary wInside 0 8) insideFile).map (List.map TensorInfo.dataOffsets) =
      some [some (0, 8)] := by decide
  obtain ⟨tensors, hparse, hmap⟩ := Option.map_eq_some_iff.mp hoffsets
  refine ⟨tensors, hparse, (parse_inFile_iff _ _ tensors hparse).mpr ?_⟩
  intro info hmem s e hse
  have hmem' := List.mem_map_of_mem (f := TensorInfo.dataOffsets) hmem
  rw [hmap, List.mem_singleton, hse, Option.some.injEq, Prod.mk.injEq] at hmem'
  obtain ⟨rfl, rfl⟩ := hmem'
  decide

/-- A tensor that ends before it starts is accepted, and its pointer lies behind the file. -/
theorem reversed_offsets_accepted :
    reversedFile.content.length = 64 ∧
      (parse (wLibrary wReversed 8 0) reversedFile).map
        (List.map fun info => (info.dataOffsets, info.dataPtr, info.byteSize)) =
      some [(some (8, 0), 72, 0 - 8)] := by
  decide

end InferFlux.Backends
