import CellChain.Target
import CellChain.Text.Quoted
/-! Settings of the compiler: the limits of the machine, the ABI defaults and the names of the low-level
intrinsics. Each has a default; a settings file changes what it names, and settings are written as such a file. -/
namespace CellChain

def deprecatedIntrinsics : List (String × String) :=
  [("tvm_trans_lt", "tvm.transLT()"), ("tvm_sender_pubkey", "msg.pubkey()"),
   ("tvm_my_public_key", "tvm.pubkey()"), ("tvm_chksignu", "tvm.checkSign()"),
   ("tvm_hashcu", "tvm.hash()"), ("tvm_accept", "tvm.accept()"),
   ("tvm_unpack_address", "address.unpack()"), ("tvm_make_address", "address.makeAddrStd()"),
   ("tvm_transfer", "address.transfer()"), ("tvm_make_zero_address", "address.makeAddrStd()"),
   ("tvm_setcode", "tvm.setcode()"), ("tvm_is_zero_address", "address.isNone()"),
   ("tvm_zero_ext_address", "address.makeAddrNone()"),
   ("tvm_make_external_address", "address.makeAddrExtern()"), ("tvm_commit", "tvm.commit()"),
   ("tvm_logstr", "tvm.log()"), ("tvm_tree_cell_size", "tvm.cdatasize()"),
   ("tvm_reset_storage", "tvm.resetStorage()"), ("tvm_config_param1", "tvm.configParam()"),
   ("tvm_config_param15", "tvm.configParam()"), ("tvm_config_param17", "tvm.configParam()"),
   ("tvm_config_param34", "tvm.configParam()"),
   ("tvm_deploy_contract", "tvm.deploy() or tvm.deployAndCallConstructor()"),
   ("tvm_insert_pubkey", "tvm.insertPubkey()"), ("tvm_build_state_init", "tvm.buildStateInit()"),
   ("tvm_ignore_integer_overflow", "pragma ignoreIntOverflow")]

def internalIntrinsics : List String :=
  ["tvm_ldu", "tvm_ldi", "tvm_pldu", "tvm_ldmsgaddr", "tvm_pldmsgaddr", "tvm_ldslice", "tvm_ldref",
   "tvm_lddict", "tvm_setindex", "tvm_sti", "tvm_stu", "tvm_stslice", "tvm_stref", "tvm_dictuset",
   "tvm_dictusetb", "tvm_bchkbitsq", "tvm_schkbitsq", "tvm_sbitrefs", "tvm_srefs", "tvm_brembits",
   "tvm_getfromdict", "tvm_get_slice_from_integer_dict", "tvm_tlen", "tvm_ends", "tvm_newc", "tvm_endc",
   "tvm_c4_key_length", "tvm_exception_constructoriscalledtwice", "tvm_exception_replayprotection",
   "tvm_exception_unpackaddress", "tvm_exception_insertpubkey", "tvm_stbr",
   "tvm_default_replay_protection_interval", "tvm_newdict", "tvm_c4", "tvm_c7", "tvm_first", "tvm_second",
   "tvm_third", "tvm_index", "tvm_sendrawmsg", "tvm_ubitsize", "tvm_stdict", "tvm_tpush", "tvm_setthird",
   "tvm_stbrefr", "tvm_tuple0", "tvm_popctr", "tvm_sdskipfirst", "tvm_dictudel", "tvm_isnull",
   "tvm_srempty", "tvm_sdempty", "tvm_ldrefrtos", "tvm_pldref_and_to_slice", "tvm_hashsu", "tvm_subslice",
   "tvm_pldslice", "tvm_selector_call", "tvm_sempty", "tvm_bremrefs", "tvm_sbits", "tvm_bbits",
   "tvm_pldrefvar", "tvm_push_fallback_func_id", "tvm_push_on_bounce_id", "tvm_push_minus_one",
   "tvm_stzeroes", "tvm_stones", "tvm_stgrams", "tvm_skipdict", "tvm_plddicts", "tvm_getparam",
   "tvm_plddict", "tvm_iszero", "tvm_poproot", "tvm_throwany", "tvm_parsemsgaddr", "tvm_reverse_push",
   "tvm_skip_and_load_uint256_in_slice_copy", "tvm_unpackfirst4", "tvm_stack"]

structure Settings where
  vm : Target := {}
  defaultVersion : Int := 2
  stdlib : String := "stdlib"
  namePrefix : String := "tvm_"
  deprecated : List (String × String) := deprecatedIntrinsics
  internal : List String := internalIntrinsics
  storageMutating : List String := ["tvm_commit", "tvm_reset_storage"]
  deploy : String := "tvm_deploy_contract"
  deriving DecidableEq, Repr, Inhabited

namespace Settings

inductive Invalid where
  | cellBits (value : Int)
  | cellRefs (value : Int)
  | arrayKey (value : Int)
  | addressBits (value : Int)
  | dictValueBits (value : Int)
  | defaultVersion (value : Int)
  | namePrefix
  deriving DecidableEq, Repr

def Invalid.message : Invalid → String
  | .cellBits n => "VM.CellBits must be positive, got " ++ toString n
  | .cellRefs n => "VM.CellRefs must leave room for a continuation link, got " ++ toString n
  | .arrayKey n => "VM.ArrayKeyLength must be within [8, 256], got " ++ toString n
  | .addressBits n => "VM.AddressBits must fit in a cell, got " ++ toString n
  | .dictValueBits n => "VM.DictValueBits must be within (0, CellBits], got " ++ toString n
  | .defaultVersion n => "ABI.DefaultVersion must be 1 or 2, got " ++ toString n
  | .namePrefix => "Intrinsics.Prefix must not be empty"

def validate (s : Settings) : Except Invalid Unit :=
  if s.vm.cellBits ≤ 0 then .error (.cellBits s.vm.cellBits)
  else if s.vm.cellRefs < 2 then .error (.cellRefs s.vm.cellRefs)
  else if s.vm.arrayKey < 8 ∨ 256 < s.vm.arrayKey then .error (.arrayKey s.vm.arrayKey)
  else if s.vm.addressBits ≤ 0 ∨ s.vm.cellBits < s.vm.addressBits then .error (.addressBits s.vm.addressBits)
  else if s.vm.dictValueBits ≤ 0 ∨ s.vm.cellBits < s.vm.dictValueBits then
    .error (.dictValueBits s.vm.dictValueBits)
  else if s.defaultVersion ≠ 1 ∧ s.defaultVersion ≠ 2 then .error (.defaultVersion s.defaultVersion)
  else if s.namePrefix = "" then .error .namePrefix
  else .ok ()

def isIntrinsic (s : Settings) (name : String) : Bool := s.namePrefix.toList.isPrefixOf name.toList

def replacement? (s : Settings) (name : String) : Option String := s.deprecated.lookup name

open Text (quote)

def isBareKey (key : String) : Bool :=
  !key.toList.isEmpty && key.toList.all fun c => c.isAlphanum || c == '-' || c == '_'

def keyText (key : String) : String := if isBareKey key then key else quote key

def entry (key value : String) : String := keyText key ++ " = " ++ value ++ "\n"

def listText (items : List String) : String := "[" ++ String.intercalate ", " (items.map quote) ++ "]"

def sortedDeprecated (s : Settings) : List (String × String) :=
  s.deprecated.mergeSort fun a b => decide (a.1 ≤ b.1)

def deprecatedText (s : Settings) : String :=
  if s.deprecated.isEmpty then ""
  else
    "\n[Intrinsics.Deprecated]\n" ++
      String.join (s.sortedDeprecated.map fun (name, use) => entry name (quote use))

def text (s : Settings) : String :=
  "[VM]\n" ++
  entry "CellBits" (toString s.vm.cellBits) ++
  entry "CellRefs" (toString s.vm.cellRefs) ++
  entry "ArrayKeyLength" (toString s.vm.arrayKey) ++
  entry "AddressBits" (toString s.vm.addressBits) ++
  entry "DictValueBits" (toString s.vm.dictValueBits) ++
  "\n[ABI]\n" ++
  entry "DefaultVersion" (toString s.defaultVersion) ++
  entry "StdlibContract" (quote s.stdlib) ++
  "\n[Intrinsics]\n" ++
  entry "Prefix" (quote s.namePrefix) ++
  entry "Internal" (listText s.internal) ++
  entry "StorageMutating" (listText s.storageMutating) ++
  entry "DeployContract" (quote s.deploy) ++
  deprecatedText s

end Settings

end CellChain
