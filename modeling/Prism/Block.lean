import Mathlib.Data.List.Basic

/-!
# Blocks

The block format of `block/mod.rs` and its submodules.  A block is a header,
one of three kinds of content and a sortition proof.  Hashes are kept abstract:
the functions modelled here only compare them for equality, and the keccak
digest of a serialized header that the source computes is the `Hashable`
instance the caller supplies.
-/

namespace Prism

/-- An object that can be meaningfully hashed (`crypto::hash::Hashable`). -/
class Hashable (α H : Type) where
  /-- The digest of the object. -/
  hash : α → H

/-- A block header (`block::header::Header`). -/
structure Header (H : Type) where
  /-- The proposer parent. -/
  parent : H
  /-- Milliseconds since the epoch, a `u128` in the source. -/
  timestamp : Nat
  /-- The proof-of-work nonce, a `u32` in the source. -/
  nonce : Nat
  /-- Merkle root over the content candidates of all block types. -/
  contentMerkleRoot : H
  /-- Thirty-two free bytes, used for the lazy annotation. -/
  extraContent : List UInt8
  /-- The proof-of-work target. -/
  difficulty : H
  deriving DecidableEq

/-- Content of a proposer block (`block::proposer::Content`). -/
structure ProposerContent (H : Type) where
  /-- Referenced transaction blocks. -/
  transactionRefs : List H
  /-- Referenced proposer blocks, besides the parent. -/
  proposerRefs : List H
  deriving DecidableEq

/-- Content of a voter block (`block::voter::Content`). -/
structure VoterContent (H : Type) where
  /-- The voter chain this block extends, a `u16` in the source. -/
  chainNumber : Nat
  /-- The previous block on the same voter chain. -/
  voterParent : H
  /-- One proposer block for each newly voted proposer level, in level order. -/
  votes : List H
  deriving DecidableEq

/-- Content of a transaction block (`block::transaction::Content`). -/
structure TransactionContent (T : Type) where
  /-- The transactions carried by the block. -/
  transactions : List T
  deriving DecidableEq

/-- The content of a block (`block::Content`). -/
inductive Content (H T : Type)
  | transaction (content : TransactionContent T)
  | proposer (content : ProposerContent H)
  | voter (content : VoterContent H)
  deriving DecidableEq

/-- A block of the Prism ledger (`block::Block`). -/
structure Block (H T : Type) where
  /-- The header; the block hash is its hash. -/
  header : Header H
  /-- The content selected by sortition. -/
  content : Content H T
  /-- Merkle proof of the content against `header.contentMerkleRoot`. -/
  sortitionProof : List H
  deriving DecidableEq

namespace Block

variable {H T : Type} [Hashable (Header H) H]

/-- The block hash is the header hash (`impl Hashable for Block`). -/
def hash (block : Block H T) : H :=
  Hashable.hash block.header

end Block

/-! ## Blocks of concrete runs

The runs that test the model take natural numbers for hashes and let a header
hash to its nonce. -/

/-- Headers over natural-number hashes hash to their nonce. -/
instance nonceHash : Hashable (Header Nat) Nat := ⟨Header.nonce⟩

/-- The header of a block of a concrete run: its proposer parent and its
nonce, which is its hash under `nonceHash`; the other fields are zero. -/
def runHeader (parent nonce : Nat) : Header Nat :=
  { parent := parent, timestamp := 0, nonce := nonce, contentMerkleRoot := 0, extraContent := [], difficulty := 0 }

end Prism
