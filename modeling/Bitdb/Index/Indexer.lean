import Bitdb.Data.LogRecord
import Mathlib.Data.List.AList

/-! The in-memory index (`bitdb/index`): a map from C strings to positions. The hash map and tree
map indexers keep a standard map, and the skip list indexer offers the same operations. -/

set_option autoImplicit false

namespace Bitdb

inductive IndexerType where
  | hashMapIndex
  | treeMapIndex
  | skipListIndex
  deriving DecidableEq, Repr

abbrev Indexer := AList fun _ : List Byte => LogRecordPst

namespace Indexer

def put (index : Indexer) (key : Bytes) (pst : LogRecordPst) : Bool × Indexer :=
  (true, index.insert key.cString pst)

def get (index : Indexer) (key : Bytes) : Option LogRecordPst := index.lookup key.cString

def delete (index : Indexer) (key : Bytes) : Bool × Indexer :=
  ((index.lookup key.cString).isSome, index.erase key.cString)

end Indexer

end Bitdb
