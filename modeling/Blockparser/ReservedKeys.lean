import Blockparser.Balances
import Blockparser.Classification

/-! The two keys dense_hash_map keeps for its empty and its deleted cells, and the scripts
that make allBalances use one of them for an address. -/
namespace Blockparser.ReservedKeys
open Bytes MemoryManager Blockparser.Parser Script AllBalances Balances

def reservedHash (first : UInt8) : Hash160 := ⟨first :: List.replicate 19 0, by rfl⟩

def emptyKey : TypedHash160 := (reservedHash 0x52, 0)

def deletedKey : TypedHash160 := (reservedHash 0x53, 0)

/-- The keys move passes to addrMap: the one it looks up, and the one of a new record. Here a
restriction is the list it is given as; restrictMap has the same empty key, so that it never
lets 52 00*19 through (`AddrTables.move_skip`). -/
def keysOf (cfg : Config) (s : AllBalances.State) (script : List UInt8) : List TypedHash160 :=
  let r := cfg.solveOutputScript script
  if r.scriptType < 0 then []
  else if cfg.restricts ≠ [] ∧ r.pubKeyHash ∉ cfg.restricts then []
  else
    match s.addrMap (r.pubKeyHash, 0) with
    | some _ => [(r.pubKeyHash, 0)]
    | none =>
      [(r.pubKeyHash, 0), (r.pubKeyHash, (s.pool.alloc.2.cells s.pool.alloc.1).hash.2)]

/-- The command with the solveOutputScript of the program; `ptr` is where a script is, with
all that is around it. -/
def config (d : Digests) (ptr : List UInt8 → ScriptPtr) (addrType : UInt8) (detailed : Bool)
    (restricts : List Hash160) (blockTime : BlockRef → BitVec 32) : Config where
  detailed := detailed
  restricts := restricts
  blockTime := blockTime
  solveOutputScript := fun script => solveOutputScript d (ptr script) script.length addrType

variable {d : Digests} {s : ScriptPtr} {size : Nat} {addrType : UInt8} {h : Hash160}

theorem owned_run (cfg : Config) (calls : List Call) :
    Owned (calls.foldl (onCall cfg) AllBalances.start) := (start_rep.calls calls).toOwned

theorem getAddr_hash {s : AllBalances.State} (ho : Owned s) (cfg : Config) (h : Hash160)
    (addrType : UInt8) :
    ((getAddr cfg s h addrType).2.pool.cells (getAddr cfg s h addrType).1).hash = (h, 0) := by
  unfold getAddr
  cases hk : s.addrMap (h, 0) with
  | some addr => exact ho.hash _ addr hk
  | none =>
    dsimp only
    simp [Pool.write, Pool.alloc_cells, ho.tail]

/-- A script anyone can put into an output. -/
def emptyKeyScript : List UInt8 :=
  [0x76, 0xA9, 20] ++ (reservedHash 0x52).1 ++ [0x88, 0xAC]

def zeroDigests : Digests := ⟨fun _ => nullHash, fun _ => hashZero⟩

def zeroConfig : Config :=
  config zeroDigests (fun script => surrounded script 0) 0 false [] fun _ => 0

end Blockparser.ReservedKeys
