import WasmCdt.Cdt.Proof.Confusion
import WasmCdt.Cdt.Proof.Abigen
import WasmCdt.Cdt.Proof.WriteAbi
import WasmCdt.Cdt.Proof.SelfMerge
import WasmCdt.Cdt.Proof.PostPass
import WasmCdt.Cdt.Proof.Ricardian
import WasmCdt.Lld.Proof.Metadata
import WasmCdt.Lld.Proof.MarkLive
import WasmCdt.Cdt.Proof.Codegen
import WasmCdt.Lld.Proof.Dispatchers
import WasmCdt.Lld.Proof.Export
import WasmCdt.Core.Proof.AssetText
import WasmCdt.Core.Proof.Reuse
import WasmCdt.Core.Proof.Sizes
import WasmCdt.Core.Proof.PointerStream
import WasmCdt.Contracts.Proof.Keys
import WasmCdt.Core.Proof.AssetPrint
import WasmCdt.Core.Proof.Uint128
import WasmCdt.Contracts.Proof.Rows
import WasmCdt.Core.Proof.Calloc
import WasmCdt.Core.Proof.RopeLeaves
import WasmCdt.Core.Proof.VarintExact
import WasmCdt.Core.Proof.Extension
import WasmCdt.Core.Proof.FirstFit
import WasmCdt.Core.Proof.Growth
import WasmCdt.Contracts.Proof.Table
import WasmCdt.Core.Proof.Padding
import WasmCdt.Core.Proof.SymbolText
import WasmCdt.Core.Proof.NameParts
import WasmCdt.Core.Proof.BinaryOps
import WasmCdt.Core.Proof.Numeral
import WasmCdt.Core.Proof.FixedWords
import WasmCdt.Core.Proof.FixedOrder
import WasmCdt.Core.Proof.Time
import WasmCdt.Core.Proof.Hash256
import WasmCdt.Cdt.Proof.Collected
import WasmCdt.Cdt.Proof.TypeTree
import WasmCdt.Lld.Proof.Loaded
import WasmCdt.Contracts.Classes
import WasmCdt.Contracts.Ledger
import WasmCdt.Contracts.Proof.Classes
import WasmCdt.Contracts.Proof.Ledger
import WasmCdt.Contracts.Proof.TokenRows
import WasmCdt.Contracts.Proof.TokenBalances
import WasmCdt.Contracts.Proof.TokenOperations
import WasmCdt.Contracts.Proof.TokenInline
import WasmCdt.Contracts.Proof.Ledger
import WasmCdt.Contracts.Proof.TokenRows
import WasmCdt.Contracts.Proof.TokenBalances
import WasmCdt.Contracts.Proof.TokenOperations
import WasmCdt.Contracts.Proof.TokenInline
import WasmCdt.Contracts.Proof.Token
import WasmCdt.Contracts.Proof.TokenRuns
import WasmCdt.Contracts.Proof.TokenFrame
import WasmCdt.Contracts.Proof.TokenRuns
import WasmCdt.Contracts.Proof.TokenFrame
