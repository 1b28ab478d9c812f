import CrossBreeder.Dnrd.Delivery
import CrossBreeder.Dnrd.LetterCase
import CrossBreeder.Dnrd.MasterCoverage
import CrossBreeder.Dnrd.MasterSizes
import CrossBreeder.Dnrd.QueryExpiry
import CrossBreeder.Dnrd.NameDecoder
import CrossBreeder.Dnrd.NameEncoder
import CrossBreeder.Dnrd.SendAttempts
import CrossBreeder.Rinetd.Descriptors
import CrossBreeder.Rinetd.Matching
import CrossBreeder.Rinetd.TwoPasses
import CrossBreeder.Dnsmasq.Reclaiming
import CrossBreeder.Dnsmasq.ForwardWorld
import CrossBreeder.Dnsmasq.LeaseRestore
import CrossBreeder.Dnsmasq.ReverseNames
import CrossBreeder.Dnsmasq.HostsAddresses
import CrossBreeder.Dnsmasq.LeaseCapacity
import CrossBreeder.Dnsmasq.LeaseTimers
import CrossBreeder.Dnsmasq.NameAuthority
import CrossBreeder.Dnsmasq.ServerAddresses
import CrossBreeder.Dnsmasq.AddressSearch
import CrossBreeder.Dnsmasq.ServerChoice
import CrossBreeder.Dnsmasq.TxtOptions
import CrossBreeder.Dnsmasq.RebindScreen
import CrossBreeder.Dnsmasq.RequestOptions
import CrossBreeder.Dnsmasq.TftpFiles
import CrossBreeder.Dnsmasq.Netascii
import CrossBreeder.Dnsmasq.OptionTags
import CrossBreeder.Dnsmasq.HostsConfigs
import CrossBreeder.Dnsmasq.LogQueue
import CrossBreeder.Haveged.Collectors
import CrossBreeder.Haveged.Segmentation
import CrossBreeder.Haveged.Autocorrelation
import CrossBreeder.Haveged.FipsTests
import CrossBreeder.Haveged.SampleSize
import CrossBreeder.Dnrd.CacheList
import CrossBreeder.Dnrd.DomainEnumeration
import CrossBreeder.Haveged.TestSpec
import CrossBreeder.PopenNoshell.CommandSplitting
import CrossBreeder.Dnsc.NameRoundTrip
import CrossBreeder.Dnsc.ResponseParsing
import CrossBreeder.Haveged.CacheTuning
import CrossBreeder.Dnsmasq.TftpDelivery
import CrossBreeder.Dnsmasq.NestedOptions
import CrossBreeder.Dnsmasq.ScriptEvents
import CrossBreeder.Dnsmasq.RelayedMessages
