import LynxTrace.Base.SortedSearch
import LynxTrace.Kallsyms.TokenTable
import LynxTrace.Protozero.Decoder
import Mathlib.Data.List.Sort

/-!
# Kallsyms.KernelSymbolMap — `KernelSymbolMap::Parse` and `Lookup` (src/kallsyms/kernel_symbol_map.cc)

The symbol table is a buffer of varints: for each address the difference to the one before and the ids of its tokens,
the last one marked.  Offsets into the buffer and relative addresses are 32-bit.  The order in which the token map hands
out its tokens, sorted by frequency, is an argument; a write past the end of the buffer is `none`.
-/

namespace LynxTrace.Kallsyms

open LynxTrace.Wire (encodeVarint)
open LynxTrace.Protozero (parseVarInt)

def kSymMaxSizeBytes : ℕ := 1024 * 1024

/-! ### Collecting -/

/-- The symbols the callback keeps. -/
def keptSymbols (first : UInt8) (text : List UInt8) : List (ℕ × List UInt8) :=
  (forEachSym (Scanner.init first) text).filterMap symbol?

/-- The tokens of the symbols with their addresses, as they are collected. -/
def symbolTokens (symbols : List (ℕ × List UInt8)) : List (ℕ × List UInt8) :=
  symbols.flatMap fun symbol => (tokenize symbol.2).map fun token => (symbol.1, token)

/-- `std::stable_sort` by address -/
def sortTokens (tokens : List (ℕ × List UInt8)) : List (ℕ × List UInt8) :=
  tokens.insertionSort fun a b => a.1 ≤ b.1

/-- An address with its tokens. -/
abbrev TokenGroup := ℕ × List (List UInt8)

def addToGroups (token : ℕ × List UInt8) : List TokenGroup → List TokenGroup
  | [] => [(token.1, [token.2])]
  | group :: groups =>
    if group.1 = token.1 then (group.1, token.2 :: group.2) :: groups else (token.1, [token.2]) :: group :: groups

/-- The ranges of tokens with one address. -/
def tokenGroups (tokens : List (ℕ × List UInt8)) : List TokenGroup := tokens.foldr addToGroups []

/-- An order of the tokens of the map, the frequent ones first. -/
structure ByFreq (tokens : List (ℕ × List UInt8)) (byFreq : List (List UInt8)) : Prop where
  nodup : byFreq.Nodup
  mem_iff : ∀ token, token ∈ byFreq ↔ token ∈ tokens.map Prod.snd
  sorted : byFreq.Pairwise fun a b => (tokens.map Prod.snd).count b ≤ (tokens.map Prod.snd).count a

/-- The ids given to the tokens. -/
def addTokens (sampling : ℕ) (byFreq : List (List UInt8)) : TokenTable × List (List UInt8 × ℕ) :=
  byFreq.foldl (fun r token => ((r.1.add sampling token).1, r.2 ++ [(token, (r.1.add sampling token).2)]))
    (TokenTable.init sampling, [])

/-- `TokenInfo::id`, which is 0 at first. -/
def idOf (ids : List (List UInt8 × ℕ)) (token : List UInt8) : ℕ :=
  ((ids.find? fun entry => entry.1 = token).map Prod.snd).getD 0

/-! ### Encoding -/

/-- The ids of the tokens of an address; the low bit marks the last one. -/
def encodeIds (id : List UInt8 → ℕ) : List (List UInt8) → List UInt8
  | [] => []
  | [token] => encodeVarint 10 (id token * 2 % 2 ^ 32 + 1)
  | token :: next :: tokens => encodeVarint 10 (id token * 2 % 2 ^ 32) ++ encodeIds id (next :: tokens)

structure Encoder where
  bufSize : ℕ
  buf : List UInt8
  index : List (ℕ × ℕ)
  numSyms : ℕ
  prevSymAddr : ℕ
  deriving DecidableEq, Repr

def encodeSymbol (sampling baseAddr : ℕ) (id : List UInt8 → ℕ) (s : Encoder) (group : TokenGroup) : Option Encoder :=
  let sizeBefore := s.buf.length % 2 ^ 32
  -- where the buffer grows, the write position is taken from the 32-bit size
  let grows := s.bufSize - sizeBefore < 1024
  let bufSize := if grows then s.bufSize + 32768 else s.bufSize
  let buf := if grows then s.buf.take sizeBefore else s.buf
  let symRelAddr := (group.1 - baseAddr) % 2 ^ 32
  let index := if s.numSyms % sampling = 0 then s.index ++ [(symRelAddr, sizeBefore)] else s.index
  let written := encodeVarint 10 ((group.1 - s.prevSymAddr) % 2 ^ 32) ++ encodeIds id group.2
  if buf.length + written.length ≤ bufSize then some ⟨bufSize, buf ++ written, index, s.numSyms + 1, group.1⟩
  else none

structure KernelSymbolMap where
  tokens : TokenTable
  baseAddr : ℕ
  numSyms : ℕ
  buf : List UInt8
  index : List (ℕ × ℕ)
  deriving DecidableEq, Repr

/-- The size the buffer starts with. -/
def kBufSize : ℕ := 2 * 1024 * 1024

def encodeSymbols (sampling baseAddr : ℕ) (id : List UInt8 → ℕ) : Encoder → List TokenGroup → Option Encoder
  | s, [] => some s
  | s, group :: groups => (encodeSymbol sampling baseAddr id s group).bind fun s =>
      encodeSymbols sampling baseAddr id s groups

/-- The address of the first symbol. -/
def baseAddr (groups : List TokenGroup) : ℕ := (groups.head?.map Prod.fst).getD 0

/-- `KernelSymbolMap::Parse` of some symbols. -/
def parseSymbols (tokenSampling symSampling : ℕ) (byFreq : List (List UInt8)) (symbols : List (ℕ × List UInt8)) :
    Option KernelSymbolMap :=
  let groups := tokenGroups (sortTokens (symbolTokens symbols))
  let added := addTokens tokenSampling byFreq
  let s := encodeSymbols symSampling (baseAddr groups) (idOf added.2) ⟨kBufSize, [], [], 0, baseAddr groups⟩ groups
  s.map fun s => ⟨added.1, baseAddr groups, s.numSyms, s.buf, s.index⟩

def parse (tokenSampling symSampling : ℕ) (byFreq : List (List UInt8)) (first : UInt8) (text : List UInt8) :
    Option KernelSymbolMap :=
  parseSymbols tokenSampling symSampling byFreq (keptSymbols first text)

/-! ### Looking up -/

/-- The scan of the symbol table from a sampled position; `next` is where the tokens of the best symbol so far start,
with its relative address. -/
def findSymbol (symRelAddr : ℕ) : ℕ → ℕ → Bool → Bool → Option (List UInt8 × ℕ) → List UInt8 → Option (List UInt8 × ℕ)
  | 0, _, _, _, next, _ => next
  | fuel + 1, addr, isFirstAddr, parsingAddr, next, rdptr =>
    match parseVarInt rdptr with
    | none => next
    | some (v, rest) =>
      if parsingAddr then
        let addr := if isFirstAddr then addr else (addr + v % 2 ^ 32) % 2 ^ 32
        if addr > symRelAddr then next else findSymbol symRelAddr fuel addr false false (some (rest, addr)) rest
      else findSymbol symRelAddr fuel addr false (v % 2 = 1) next rest

/-- The tokens from a position on, joined. -/
def readName (sampling : ℕ) (tokens : TokenTable) : ℕ → Bool → List UInt8 → List UInt8 → List UInt8
  | 0, _, symName, _ => symName
  | fuel + 1, isFirstToken, symName, rdptr =>
    match parseVarInt rdptr with
    | none => symName
    | some (v, rest) =>
      let token := TokenTable.unmask (tokens.lookup sampling (v / 2 % 2 ^ 32))
      let symName := symName ++ (if isFirstToken then [] else [kUnderscore]) ++ token
      if v % 2 = 1 then symName else readName sampling tokens fuel false symName rest

namespace KernelSymbolMap

/-- The entry of the index that `Lookup` starts from: the one before the upper bound of the address. -/
def indexEntry (m : KernelSymbolMap) (symRelAddr : ℕ) : Option (ℕ × ℕ) :=
  let bound := partitionPoint (fun entry => !(symRelAddr < entry.1 || (symRelAddr = entry.1 && 0 < entry.2))) m.index
  m.index[bound - 1]?

/-- `KernelSymbolMap::Lookup` -/
def lookup (tokenSampling : ℕ) (m : KernelSymbolMap) (symAddr : ℕ) : List UInt8 :=
  if m.index = [] ∨ symAddr < m.baseAddr then []
  else
    let symRelAddr := (symAddr - m.baseAddr) % 2 ^ 32
    match m.indexEntry symRelAddr with
    | none => []
    | some (addr, off) =>
      match findSymbol symRelAddr (m.buf.length + 1) addr true true none (m.buf.drop off) with
      | none => []
      | some (next, symStartAddr) =>
        if symRelAddr - symStartAddr > kSymMaxSizeBytes then []
        else readName tokenSampling m.tokens (m.buf.length + 1) true [] next

end KernelSymbolMap

end LynxTrace.Kallsyms
