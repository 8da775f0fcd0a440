import Provision.Text.Class
import Provision.Ty.Basic

/-!
# Builtin functions

The functions that a program may call, with the types of their parameters and results.
-/

namespace Provision

inductive Builtin where
  | fileAsset
  | stringAsset
  | remoteAsset
  | fileArchive
  | remoteArchive
  | assetArchive
  | readFile
  | join
  | split
  | select
  | toJson
  | toBase64
  | fromBase64
  | secret
  | stackReference
  deriving DecidableEq, Repr, Inhabited

inductive AssetSource where
  | path
  | inline
  | uri
  | entries
  deriving DecidableEq, Repr

def AssetSource.name : AssetSource → String
  | .path => "path"
  | .inline => "inline"
  | .uri => "uri"
  | .entries => "entries"

namespace Builtin

def all : List Builtin :=
  [.fileAsset, .stringAsset, .remoteAsset, .fileArchive, .remoteArchive, .assetArchive, .readFile,
    .join, .split, .select, .toJson, .toBase64, .fromBase64, .secret, .stackReference]

def name : Builtin → String
  | .fileAsset => "fileAsset"
  | .stringAsset => "stringAsset"
  | .remoteAsset => "remoteAsset"
  | .fileArchive => "fileArchive"
  | .remoteArchive => "remoteArchive"
  | .assetArchive => "assetArchive"
  | .readFile => "readFile"
  | .join => "join"
  | .split => "split"
  | .select => "select"
  | .toJson => "toJSON"
  | .toBase64 => "toBase64"
  | .fromBase64 => "fromBase64"
  | .secret => "secret"
  | .stackReference => "stackReference"

def dropMarker (name : String) : String :=
  match name.toList with
  | 'f' :: 'n' :: ':' :: ':' :: rest => String.ofList rest
  | _ => name

def ofName? (name : String) : Option Builtin :=
  let wanted := Text.lower (dropMarker name)
  all.find? fun builtin => Text.lower builtin.name == wanted

def params : Builtin → List Ty
  | .fileAsset | .stringAsset | .remoteAsset | .fileArchive | .remoteArchive => [.string]
  | .assetArchive => [.map .asset]
  | .readFile | .toBase64 | .fromBase64 => [.string]
  | .join => [.string, .list .string]
  | .split => [.string, .string]
  | .select => [.int, .list .any]
  | .toJson => [.any]
  | .secret => [.any]
  | .stackReference => [.string, .string]

def result : Builtin → Ty
  | .fileAsset | .stringAsset | .remoteAsset => .asset
  | .fileArchive | .remoteArchive | .assetArchive => .archive
  | .readFile | .toBase64 | .fromBase64 | .join | .toJson => .string
  | .split => .list .string
  | .select | .secret | .stackReference => .any

def assetSource? : Builtin → Option AssetSource
  | .fileAsset | .fileArchive => some .path
  | .stringAsset => some .inline
  | .remoteAsset | .remoteArchive => some .uri
  | .assetArchive => some .entries
  | _ => none

def acceptsEventual : Builtin → Bool
  | .secret => true
  | _ => false

def returnsEventual : Builtin → Bool
  | .secret | .stackReference => true
  | _ => false

end Builtin

end Provision
