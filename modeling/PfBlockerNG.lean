import PfBlockerNG.OrderedDict
import PfBlockerNG.TopElement
import PfBlockerNG.Transitions
import PfBlockerNG.Backtracking
import PfBlockerNG.Strings
import PfBlockerNG.PyText
import PfBlockerNG.RegexRules
import PfBlockerNG.RegexCost
import PfBlockerNG.Bands
import PfBlockerNG.PublicSuffix
import PfBlockerNG.IdnAnalysis
import PfBlockerNG.Whitelist
import PfBlockerNG.Matcher
import PfBlockerNG.Precedence
import PfBlockerNG.DomainNames
import PfBlockerNG.AbpRules
import PfBlockerNG.Reconcile
import PfBlockerNG.Build
import PfBlockerNG.BlockStores
import PfBlockerNG.FastPath
import PfBlockerNG.BlockBands
import PfBlockerNG.AllowStores
import PfBlockerNG.AllowMerge
import PfBlockerNG.AllowMonotone
import PfBlockerNG.LruCache
import PfBlockerNG.DecisionMemo
import PfBlockerNG.SnapshotGenerations
import PfBlockerNG.ReloadHandshake
import PfBlockerNG.ControlTimers
import PfBlockerNG.BinaryStrings
import PfBlockerNG.IpText
import PfBlockerNG.CidrSubtract
import PfBlockerNG.LivePunch
import PfBlockerNG.Suppression
import PfBlockerNG.ConfigRegistry
import PfBlockerNG.ConfigGateway
import PfBlockerNG.DecisionSession
import PfBlockerNG.DecisionAgreement
import PfBlockerNG.DecisionForwards
import PfBlockerNG.DeciderRestart
import PfBlockerNG.ByteStrings
import PfBlockerNG.DnsNames
import PfBlockerNG.DnsWire
import PfBlockerNG.DnsNameWire
import PfBlockerNG.DnsWireRoundTrip
import PfBlockerNG.Schedule
import PfBlockerNG.ScheduleState
import PfBlockerNG.ScheduleTick
import PfBlockerNG.ScheduleRuns
import PfBlockerNG.ScheduleCache
import PfBlockerNG.PendingChanges
import PfBlockerNG.AliasDelta
import PfBlockerNG.AliasLedger
import PfBlockerNG.StableBuckets
import PfBlockerNG.AutoruleList
import PfBlockerNG.TextArea
import PfBlockerNG.ResolverTakeover
import PfBlockerNG.ResolverRoundTrip
import PfBlockerNG.WhatwgIpv4
import PfBlockerNG.AbpAnchor
import PfBlockerNG.NumericHosts
import PfBlockerNG.AbpAnchorSides
import PfBlockerNG.KeyedTree
import PfBlockerNG.SyncSchema
import PfBlockerNG.SyncMerge
import PfBlockerNG.SyncProjection
import PfBlockerNG.SyncFixedPoint
import PfBlockerNG.SyncAgreement
import PfBlockerNG.SyncLocals
import PfBlockerNG.SyncPersisted
import PfBlockerNG.SyncReceive
import PfBlockerNG.Ipv6Subtraction
import PfBlockerNG.ShellText
import PfBlockerNG.CidrDedup
import PfBlockerNG.Masterfile
import PfBlockerNG.RangeCollapse
import PfBlockerNG.RegexUpgrade
import PfBlockerNG.PhpArray
import PfBlockerNG.ScheduleModel
import PfBlockerNG.ScheduleModelExact
import PfBlockerNG.ScheduleMigration
import PfBlockerNG.ScheduleMigrationComplete
import PfBlockerNG.ListenerAdvertisements
import PfBlockerNG.PslAlgorithm
import PfBlockerNG.RrsetGroups
import PfBlockerNG.NameReaders
import PfBlockerNG.LiteralPrefilter
import PfBlockerNG.RegexReading
import PfBlockerNG.RegexFolding
import PfBlockerNG.RegexTokens
import PfBlockerNG.CompileText
import PfBlockerNG.UpstreamPool
import PfBlockerNG.Netip
import PfBlockerNG.ControlVerbs
import PfBlockerNG.AccessRules
import PfBlockerNG.AccessConfig
import PfBlockerNG.UserRegexNames
import PfBlockerNG.Utf8
import PfBlockerNG.AbpCapture
import PfBlockerNG.NumericHostParser
import PfBlockerNG.BlockWrites
import PfBlockerNG.Top1mZones
import PfBlockerNG.Attribution
import PfBlockerNG.SuffixPolicy
import PfBlockerNG.CounterWorker
import PfBlockerNG.PyIpaddress
import PfBlockerNG.BypassSpelling
import PfBlockerNG.GroupRepeats
import PfBlockerNG.PcreReading
import PfBlockerNG.RangeRuns
import PfBlockerNG.OctetRegex
import PfBlockerNG.OctetParts
import PfBlockerNG.OctetMatches
import PfBlockerNG.OctetRegexExact
import PfBlockerNG.CrashRuns
import PfBlockerNG.DirectoryFiles
import PfBlockerNG.StagePublish
import PfBlockerNG.StageRecovery
import PfBlockerNG.SettingsFamily
import PfBlockerNG.SettingsRestore
import PfBlockerNG.TextFormats
import PfBlockerNG.LogText
import PfBlockerNG.ControlChannel
