import Libntech.Containers.LinkedListIterators
import Libntech.Containers.LinkedListReference
import Libntech.Containers.MapIterator
import Libntech.Containers.PointerKeys
import Libntech.Containers.RBTreeIterator
import Libntech.Containers.RingBuffer
import Libntech.Containers.SequenceOwnershipMeaning
import Libntech.Containers.BufferCapacity
import Libntech.Containers.BufferOrder
import Libntech.Containers.SearchReplaceMeaning
import Libntech.Containers.SubstitutionMeaning
import Libntech.Containers.StringSequenceMeaning
import Libntech.Csv.RoundTrip
import Libntech.Glob.Peeling
import Libntech.Json.Canonical
import Libntech.Json.Comparison
import Libntech.Json.Consumption
import Libntech.Json.EnvLineMeaning
import Libntech.Json.EscapeSequences
import Libntech.Json.DeepMergeMeaning
import Libntech.Json.ObjectHistory
import Libntech.Json.RoundTrip
import Libntech.Json.Select
import Libntech.Json.Separators
import Libntech.Json.Yaml
import Libntech.Json.YamlData
import Libntech.Json.YamlMeaning
import Libntech.Mustache.DelimiterBuffers
import Libntech.Mustache.FailedAssertions
import Libntech.Mustache.ReadBack
import Libntech.Mustache.Iterations
import Libntech.Mustache.LookAhead
import Libntech.Network.IPAddressMeaning
import Libntech.Threaded.DequeMeaning
import Libntech.Threaded.Waiting
import Libntech.Files.Mistakes
import Libntech.Files.FileLock
import Libntech.Files.FileRead
import Libntech.Files.GenericAt
import Libntech.Files.GenericAtMeaning
import Libntech.Files.SparseCopyLinux
import Libntech.Strings.ReplaceMeaning
import Libntech.Strings.VersionComparison
import Libntech.Strings.Tokens
import Libntech.Strings.Substring
import Libntech.Printf.ReadBack
import Libntech.Strings.CaseConversion
import Libntech.Strings.Unicode
import Libntech.Strings.StrCat
import Libntech.Strings.EscapeChar
import Libntech.Glob.BraceExpansion
import Libntech.Glob.Translation
import Libntech.Network.IPV4AddressMeaning
import Libntech.Network.IPAddressRoundTrip
import Libntech.Network.HexAddress
import Libntech.Csv.Locality
import Libntech.Containers.HashMapSizes
import Libntech.Files.OpenDescriptors
import Libntech.Files.PassOpenFile
import Libntech.Files.SafeChangeMeaning
import Libntech.Files.DeleteTree
import Libntech.Files.ReadLines
import Libntech.Network.InetNtop
import Libntech.Network.InetPtonBounds
import Libntech.Network.InetPtonMeaning
import Libntech.Network.InetRoundTrip
import Libntech.Logging.BufferMeaning
