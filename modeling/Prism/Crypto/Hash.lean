import Prism.Sortition

/-!
# Hashes

`crypto::hash::H256`, thirty-two bytes that spell a big-endian 256-bit
number.  Its `Ord` reads the high sixteen bytes and the low sixteen as two
`u128`s and compares the high ones first; that is the order of the numbers
the bytes spell (`H256.cmp_eq_compare`), so a hash below the difficulty under
`Ord` is below it as `sortition_hash` reads the two.  The genesis hashes that
`BlockchainConfig::new` derives spell their slot in the last two bytes, and
slots that fit a `u16` get distinct hashes (`genesisConfig`).
-/

namespace Prism

/-- `crypto::hash::H256`. -/
structure H256 where
  /-- The bytes, most significant first. -/
  bytes : Vector UInt8 32
  deriving DecidableEq

namespace H256

/-- `H256::default()`: all zeros. -/
instance : Inhabited H256 := ⟨⟨Vector.replicate 32 0⟩⟩

/-- `U256::from_big_endian` of the bytes. -/
instance : AsU256 H256 where
  asU256 hash := AsU256.asU256 hash.bytes
  asU256_lt hash := AsU256.asU256_lt hash.bytes

/-- `impl Ord for H256`: bytes `0..16` and `16..32` read as `u128`s, the
higher ones compared first. -/
def cmp (self other : H256) : Ordering :=
  let selfHigher := BigEndian.fromBeBytes (self.bytes.toList.take 16)
  let selfLower := BigEndian.fromBeBytes (self.bytes.toList.drop 16)
  let otherHigher := BigEndian.fromBeBytes (other.bytes.toList.take 16)
  let otherLower := BigEndian.fromBeBytes (other.bytes.toList.drop 16)
  let higher := compare selfHigher otherHigher
  match higher with
  | .eq => compare selfLower otherLower
  | _ => higher

instance : Ord H256 := ⟨cmp⟩

/-- The order of hashes is the order of the numbers they spell. -/
theorem cmp_eq_compare (self other : H256) :
    cmp self other = compare (AsU256.asU256 self) (AsU256.asU256 other) := by
  have split (hash : H256) : hash.bytes.toList = hash.bytes.toList.take 16 ++ hash.bytes.toList.drop 16 :=
    (List.take_append_drop 16 _).symm
  have lowLength (hash : H256) : (hash.bytes.toList.drop 16).length = 16 := by simp
  show _ = compare (BigEndian.fromBeBytes self.bytes.toList) (BigEndian.fromBeBytes other.bytes.toList)
  rw [split self, split other,
    BigEndian.compare_fromBeBytes_append ((lowLength self).trans (lowLength other).symm)]
  -- the source's match on the higher halves is `Ordering.then`
  unfold cmp
  dsimp only
  cases compare (BigEndian.fromBeBytes (self.bytes.toList.take 16))
    (BigEndian.fromBeBytes (other.bytes.toList.take 16)) <;> rfl

/-- `self < other` under `Ord` is the numeric comparison. -/
theorem compare_eq_lt {self other : H256} :
    compare self other = .lt ↔ AsU256.asU256 self < AsU256.asU256 other := by
  rw [show compare self other = cmp self other from rfl, cmp_eq_compare, Nat.compare_eq_lt]

end H256

/-- `config::DEFAULT_DIFFICULTY`: every byte `255`, the largest hash. -/
def defaultDifficulty : H256 := ⟨Vector.replicate 32 255⟩

/-- The genesis hash of slot `index` in `BlockchainConfig::new`: thirty zero
bytes, then the slot as a big-endian `u16`. -/
def genesisHash (index : Nat) : H256 :=
  ⟨⟨(List.replicate 30 0 ++ BigEndian.toBeBytes 2 index).toArray, by simp⟩⟩

/-- Slots that fit a `u16` have distinct genesis hashes. -/
theorem genesisHash_injective {index other : Nat} (indexFits : index < 2 ^ 16) (otherFits : other < 2 ^ 16)
    (same : genesisHash index = genesisHash other) : index = other := by
  have bytes := congrArg (fun hash : H256 => BigEndian.fromBeBytes (hash.bytes.toList.drop 30)) same
  simp only [genesisHash, Vector.toList_mk] at bytes
  rw [List.drop_left' (by simp), List.drop_left' (by simp), BigEndian.fromBeBytes_toBeBytes_of_lt (by omega),
    BigEndian.fromBeBytes_toBeBytes_of_lt (by omega)] at bytes
  exact bytes

/-- The chains of `BlockchainConfig::new` for `voterChains` chains: the
proposer genesis in slot `PROPOSER_INDEX` and chain `k`'s in slot
`k + FIRST_VOTER_INDEX`, a `u16` sum that must not overflow. -/
def genesisConfig (voterChains : Nat) (fits : voterChains + firstVoterIndex ≤ 2 ^ 16) : BlockchainConfig H256 where
  voterChains := voterChains
  proposerGenesis := genesisHash proposerIndex
  voterGenesis := (List.range voterChains).map fun chainNum => genesisHash (chainNum + firstVoterIndex)
  voterChains_lt := by unfold firstVoterIndex at fits; omega
  length_voterGenesis := by simp
  nodup_genesis := by
    -- the slots are distinct and fit a `u16`, where the genesis hash tells them apart
    have slots : (proposerIndex :: (List.range voterChains).map (· + firstVoterIndex)).Nodup := by
      refine List.nodup_cons.mpr ⟨?_, (List.nodup_range).map (fun a b same => by simpa using same)⟩
      simp [proposerIndex, firstVoterIndex]
    have slotFits : ∀ slot ∈ proposerIndex :: (List.range voterChains).map (· + firstVoterIndex), slot < 2 ^ 16 := by
      intro slot member
      rcases List.mem_cons.mp member with rfl | member
      · decide
      · obtain ⟨chainNum, inRange, rfl⟩ := List.mem_map.mp member
        rw [List.mem_range] at inRange
        unfold firstVoterIndex at fits ⊢
        omega
    have mapped : ((proposerIndex :: (List.range voterChains).map (· + firstVoterIndex)).map genesisHash).Nodup :=
      List.Nodup.map_on (fun index indexMem other otherMem same =>
        genesisHash_injective (slotFits index indexMem) (slotFits other otherMem) same) slots
    simpa [List.map_map, Function.comp_def] using mapped

end Prism
